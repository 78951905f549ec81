import RToJulia.Proofs.Grammar.Safety
import RToJulia.Proofs.Text.Escape
import RToJulia.Token.Lexer

/-! # The tokens of a source

What a token cut from a source can be: each kind has the lexemes and the values
that the lexer gives it. In particular every source is readable: its tokens end
with `eof`, and its literals carry values of their kinds.
-/

namespace RToJulia

open Text Lexer

def isPlainName : Bytes → Bool
  | [] => false
  | b :: s => isNameStart b && s.all isNameByte

theorem isPlainName_bytes {x : Bytes} (h : isPlainName x = true) :
    x ≠ [] ∧ ∀ b ∈ x, isNameByte b = true := by
  cases x with
  | nil => contradiction
  | cons b x =>
      simp only [isPlainName, Bool.and_eq_true, List.all_eq_true] at h
      exact ⟨by simp, List.forall_mem_cons.mpr ⟨by simp [isNameByte, h.1], h.2⟩⟩

def isSymbol (b : UInt8) : Bool :=
  b ∈ [0x21, 0x26, 0x2a, 0x2b, 0x2d, 0x2f, 0x3a, 0x3c, 0x3d, 0x3e, 0x5e, 0x7c]

def isMark : Kind → Bool
  | .eof | .newline | .ident | .integer | .float | .string | .bool => false
  | _ => true

inductive Lexed : Token → Prop
  | eof (line : Int) : Lexed ⟨.eof, [], line, none⟩
  | newline (lexeme : Bytes) (line : Int) : Lexed ⟨.newline, lexeme, line, none⟩
  | mark {kind : Kind} {lexeme : Bytes} (line : Int) (kindMark : isMark kind = true)
      (symbols : (Grammar.level? kind).isSome ∨ kind = .bang → lexeme.all isSymbol = true) :
      Lexed ⟨kind, lexeme, line, none⟩
  | name {lexeme : Bytes} (line : Int) (plain : isPlainName lexeme = true) :
      Lexed ⟨.ident, lexeme, line, none⟩
  | quoted {body : Bytes} (line : Int) (nonempty : body ≠ []) (backtick : 0x60 ∉ body) :
      Lexed ⟨.ident, 0x60 :: body ++ [0x60], line, none⟩
  | truth {lexeme : Bytes} (line : Int) (value : Bool) :
      Lexed ⟨.bool, lexeme, line, some (.truth value)⟩
  | integer {digits lexeme : Bytes} (line : Int) (nonempty : digits ≠ [])
      (all : digits.all isDigitByte = true) : Lexed ⟨.integer, lexeme, line, some (.text digits)⟩
  | float {lexeme : Bytes} (line : Int) (significand : Nat) (exponent : Int) :
      Lexed ⟨.float, lexeme, line, some (.real (.finite false significand exponent))⟩
  | string {lexeme value : Bytes} (line : Int) (whole : isWhole value = true) :
      Lexed ⟨.string, lexeme, line, some (.text value)⟩

/-! ## Pieces -/

section Pieces

variable {line : Nat} {b : UInt8} {rest : Bytes} {t : Token}

theorem operator?_spec {next : Option UInt8} {kind : Kind} {two : Bool}
    (h : operator? b next = some (kind, two)) :
    isMark kind = true ∧ isSymbol b = true ∧ (two = true → ∃ c, next = some c ∧ isSymbol c = true) := by
  unfold operator? at h
  split at h <;> cases h
  all_goals exact ⟨rfl, rfl, by simp [isSymbol]⟩

theorem single?_spec {kind : Kind} (h : single? b = some kind) :
    isMark kind = true ∧ ((Grammar.level? kind).isSome ∨ kind = .bang → isSymbol b = true) := by
  unfold single? at h
  split at h <;> cases h
  all_goals exact ⟨rfl, by simp [Grammar.level?, isSymbol]⟩

theorem keyword?_spec {name : Bytes} {kind : Kind} (h : keyword? name = some kind) :
    isMark kind = true ∧ Grammar.level? kind = none ∧ kind ≠ .bang := by
  unfold keyword? at h
  repeat' split at h
  all_goals cases h
  all_goals exact ⟨rfl, rfl, nofun⟩

theorem nameToken_lexed {name : Bytes} (h : isPlainName name = true) :
    Lexed (nameToken line name) := by
  unfold nameToken
  split
  · exact .truth _ true
  split
  · exact .truth _ false
  cases hk : keyword? name with
  | none => exact .name _ h
  | some kind =>
      obtain ⟨hmark, hlevel, hbang⟩ := keyword?_spec hk
      exact .mark _ hmark (by simp [hlevel, hbang])

theorem ofQuotient?_finite {negative : Bool} {num den : Nat} {value : Decimal.Binary64}
    (h : Decimal.Binary64.ofQuotient? negative num den = some value) :
    ∃ m e, value = .finite negative m e := by
  unfold Decimal.Binary64.ofQuotient? at h
  obtain ⟨-, hvalue⟩ := Option.ite_none_right_eq_some.mp h
  exact ⟨_, _, (Option.some.inj hvalue).symm⟩

/-- The number that a text without a sign writes is not negative. -/
theorem toBinary64?_finite {s : Bytes} {value : Decimal.Binary64} (hb : isDigitByte b = true)
    (h : (Decimal.Number.ofText (b :: s)).toBinary64? = some value) :
    ∃ m e, value = .finite false m e := by
  have hsign : Decimal.splitSign (b :: s) = (false, b :: s) := by
    unfold Decimal.splitSign
    split
    · rename_i heq
      cases heq
      simp [isDigitByte] at hb
    · rename_i heq
      cases heq
      simp [isDigitByte] at hb
    · rfl
  have hneg : (Decimal.Number.ofText (b :: s)).negative = false := by
    simp [Decimal.Number.ofText, hsign]
  unfold Decimal.Number.toBinary64? at h
  rw [hneg] at h
  split at h
  · exact ⟨_, _, (Option.some.inj h).symm⟩
  · exact ofQuotient?_finite h

theorem number_lexed (hb : isDigitByte b = true) (h : number line (b :: rest) = .token t) :
    Lexed t := by
  have hds : (b :: rest).takeWhile isDigitByte = b :: rest.takeWhile isDigitByte := by
    simp [hb]
  unfold number at h
  dsimp only at h
  split at h
  · cases h
    exact .integer _ (by simp [hds]) (List.all_takeWhile ..)
  · rw [hds] at h
    split at h
    · rename_i value hvalue
      obtain ⟨m, e, rfl⟩ := toBinary64?_finite hb hvalue
      cases h
      exact .float _ m e
    · contradiction

/-- The body of a string is a sequence of single bytes and of backslashes with a byte each, and
it stays one when escaped quotes are replaced. -/
theorem isWhole_unescape {quote : UInt8} {s body : Bytes} (hq : quote ≠ 0x5c)
    (h : stringBody? quote s = some body) : isWhole (unescape quote body) = true := by
  fun_induction stringBody? quote s generalizing body with
  | case1 => contradiction
  | case2 => contradiction
  | case3 b rest ih =>
      obtain ⟨inner, hi, rfl⟩ := Option.map_eq_some_iff.mp h
      have hinner := ih hi
      by_cases hb : b = quote
      · simpa [unescape, isWhole, pending, hb, hq] using hinner
      · simpa [unescape, isWhole, pending, hb] using hinner
  | case4 rest =>
      cases h
      rfl
  | case5 b rest hlone hpair hb ih =>
      obtain ⟨inner, hi, rfl⟩ := Option.map_eq_some_iff.mp h
      have hslash : b ≠ 0x5c := by
        rintro rfl
        cases rest with
        | nil => exact hlone rfl rfl
        | cons c rest => exact hpair c rest rfl rfl
      simpa [unescape, isWhole, pending, hslash] using ih hi

theorem stringPiece_lexed {quote : UInt8} (hq : quote ≠ 0x5c)
    (h : stringPiece line quote rest = .token t) : Lexed t := by
  unfold stringPiece at h
  split at h
  · rename_i body hbody
    cases h
    refine .string _ ?_
    rw [isWhole_mend]
    exact isWhole_unescape hq hbody
  · contradiction

theorem quotedName_lexed (h : quotedName line rest = .token t) : Lexed t := by
  unfold quotedName at h
  dsimp only at h
  split at h
  · rename_i hbody
    simp only [Bool.and_eq_true, decide_eq_true_eq] at hbody
    cases h
    refine .quoted _ hbody.1 fun hmem => ?_
    have hinside := List.all_eq_true.mp List.all_takeWhile 0x60 hmem
    contradiction
  · contradiction

/-- A piece that is a token. -/
theorem piece_lexed (h : piece line b rest = .token t) : Lexed t := by
  unfold piece at h
  split at h
  · contradiction
  split at h
  · cases h
    exact .newline _ _
  split at h
  · contradiction
  split at h
  · rename_i hquote
    simp only [Bool.or_eq_true, decide_eq_true_eq] at hquote
    exact stringPiece_lexed (by rcases hquote with rfl | rfl <;> decide) h
  split at h
  · exact quotedName_lexed h
  split at h
  · rename_i kind two hop
    cases h
    obtain ⟨hmark, hb, htwo⟩ := operator?_spec hop
    refine .mark _ hmark fun _ => ?_
    cases two with
    | false => simpa using hb
    | true =>
        obtain ⟨c, hc, hsym⟩ := htwo rfl
        cases rest with
        | nil => contradiction
        | cons d rest =>
            cases hc
            simpa using ⟨hb, hsym⟩
  split at h
  · rename_i kind hsingle
    cases h
    obtain ⟨hmark, hsym⟩ := single?_spec hsingle
    exact .mark _ hmark fun hop => by simpa using hsym hop
  split at h
  · rename_i hdigit
    exact number_lexed hdigit h
  split at h
  · rename_i hstart
    cases h
    exact nameToken_lexed (by simp [isPlainName, hstart])
  · contradiction

end Pieces

/-! ## Sources -/

/-- What holds of every token that is cut holds of all tokens of a source. -/
theorem tokens_of_pieces {P : Token → Prop}
    (hpiece : ∀ line b rest t, piece line b rest = .token t → P t)
    (heof : ∀ line, P (Token.eof line)) (source : Bytes) : ∀ t ∈ tokens source, P t := by
  have hafter : ∀ line skip s t, .token t ∈ (piecesAfter line skip s).1 → P t := by
    intro line skip s t h
    fun_induction piecesAfter line skip s with
    | case1 => contradiction
    | case2 line skip b rest ih => exact ih h
    | case3 line b rest p ps last hps ih =>
        rcases List.mem_cons.mp h with hp | hp
        · exact hpiece line b rest t hp.symm
        · exact ih (by simpa [hps] using hp)
  intro t ht
  obtain ⟨event, hevent, ht⟩ := List.mem_filterMap.mp ht
  cases event with
  | fault f => contradiction
  | token u =>
      cases ht
      rcases List.mem_append.mp hevent with hp | hp
      · obtain ⟨p, hp, hu⟩ := List.mem_filterMap.mp hp
        cases p <;> cases hu
        exact hafter 1 0 source _ hp
      · cases List.mem_singleton.mp hp
        exact heof _

theorem tokens_lexed (source : Bytes) : ∀ t ∈ tokens source, Lexed t :=
  tokens_of_pieces (fun _ _ _ _ h => piece_lexed h) (fun line => .eof line) source

theorem Lexed.typed {t : Token} (h : Lexed t) : Grammar.isTyped t = true := by
  cases h with
  | mark line hmark _ =>
      unfold Grammar.isTyped
      split <;> first | rfl | simp_all [isMark]
  | _ => rfl

/-- The tokens of a source end with `eof`. -/
theorem tokens_eq_concat (source : Bytes) :
    ∃ front line, tokens source = front ++ [Token.eof line] := by
  unfold tokens scan
  rw [List.filterMap_append]
  exact ⟨_, (pieces source).2, rfl⟩

theorem tokens_readable (source : Bytes) : Grammar.Readable (tokens source) where
  ends := by
    obtain ⟨front, line, h⟩ := tokens_eq_concat source
    exact ⟨Token.eof line, by simp [h], rfl⟩
  typed t ht := (tokens_lexed source t ht).typed

end RToJulia
