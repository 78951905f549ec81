import RToJulia.Token.Basic
import RToJulia.Decimal.Read

/-!
# Cutting program text into pieces

A source is cut into pieces, each a token, a blank, a comment or a fault, so that
the pieces put together are the source again.  A fault is reported in its place
and cutting goes on after it.  The tokens of a source end with one `eof` token.
-/

namespace RToJulia

open Text

/-- What cannot be read as a token, and the line where it was noticed. -/
inductive LexFault where
  | unexpected (c : Char) (line : Nat)
  | unterminated (line : Nat)
  | floatRange (text : Bytes) (line : Nat)
  deriving DecidableEq, Repr

namespace LexFault

def message : LexFault → Bytes
  | unexpected c line =>
      "unexpected character: " ++ String.utf8EncodeChar c ++ " at line " ++ decimal line
  | unterminated line => "unterminated string at line " ++ decimal line
  | floatRange text line =>
      "invalid float at line " ++ decimal line ++ ": strconv.ParseFloat: parsing " ++ quoted text ++
        ": value out of range"

end LexFault

inductive Piece where
  | token (t : Token)
  | blank (b : UInt8)
  | comment (text : Bytes)
  | fault (text : Bytes) (f : LexFault)
  deriving DecidableEq, Repr

namespace Piece

def text : Piece → Bytes
  | token t => t.lexeme
  | blank b => [b]
  | comment text => text
  | fault text _ => text

end Piece

namespace Lexer

def isNameStart (b : UInt8) : Bool :=
  (0x61 ≤ b && b ≤ 0x7a) || (0x41 ≤ b && b ≤ 0x5a) || b == 0x5f

def isNameByte (b : UInt8) : Bool :=
  isNameStart b || isDigitByte b || b == 0x2e

def single? (b : UInt8) : Option Kind :=
  match b with
  | 0x28 => some .leftParen
  | 0x29 => some .rightParen
  | 0x7b => some .leftBrace
  | 0x7d => some .rightBrace
  | 0x5b => some .leftBracket
  | 0x5d => some .rightBracket
  | 0x2c => some .comma
  | 0x3b => some .semicolon
  | 0x3a => some .colon
  | 0x24 => some .dollar
  | 0x2b => some .plus
  | 0x2d => some .minus
  | 0x2a => some .star
  | 0x2f => some .slash
  | 0x5e => some .caret
  | _ => none

/-- The operators of one or two bytes: the kind of the longer one, if the second byte
completes it, else the kind of the first byte alone. -/
def operator? (b : UInt8) (next : Option UInt8) : Option (Kind × Bool) :=
  match b, next with
  | 0x3c, some 0x2d => some (.backArrow, true)
  | 0x3c, some 0x3d => some (.lessEqual, true)
  | 0x3c, _ => some (.less, false)
  | 0x3e, some 0x3d => some (.greaterEqual, true)
  | 0x3e, _ => some (.greater, false)
  | 0x3d, some 0x3d => some (.equalEqual, true)
  | 0x3d, _ => some (.equal, false)
  | 0x21, some 0x3d => some (.bangEqual, true)
  | 0x21, _ => some (.bang, false)
  | 0x26, some 0x26 => some (.and, true)
  | 0x26, _ => some (.and, false)
  | 0x7c, some 0x7c => some (.or, true)
  | 0x7c, _ => some (.or, false)
  | _, _ => none

def keyword? (name : Bytes) : Option Kind :=
  if name = "if" then some .kwIf
  else if name = "else" then some .kwElse
  else if name = "for" then some .kwFor
  else if name = "in" then some .kwIn
  else if name = "while" then some .kwWhile
  else if name = "function" then some .kwFunction
  else if name = "return" then some .kwReturn
  else none

/-- The token of a plain name: a truth value in any case, a keyword, else an identifier. -/
def nameToken (line : Nat) (name : Bytes) : Token :=
  if name.map lowerByte = "true" then ⟨.bool, name, line, some (.truth true)⟩
  else if name.map lowerByte = "false" then ⟨.bool, name, line, some (.truth false)⟩
  else ⟨(keyword? name).getD .ident, name, line, none⟩

/-! ### Numbers -/

/-- The exponent at the front, empty unless it has digits. -/
def exponentPart (s : Bytes) : Bytes :=
  match s with
  | e :: rest =>
      if e = 0x65 || e = 0x45 then
        let sign := match rest with
          | b :: _ => if b = 0x2b || b = 0x2d then [b] else []
          | [] => []
        let ds := (rest.drop sign.length).takeWhile isDigitByte
        if ds = [] then [] else e :: sign ++ ds
      else []
  | [] => []

/-- The point and the digits after it at the front, empty unless there are both. -/
def fractionPart (s : Bytes) : Bytes :=
  match s with
  | 0x2e :: rest =>
      let ds := rest.takeWhile isDigitByte
      if ds = [] then [] else 0x2e :: ds
  | _ => []

/-- The piece of a number: a float needs a fraction, an integer may carry an `L`. -/
def number (line : Nat) (s : Bytes) : Piece :=
  let ds := s.takeWhile isDigitByte
  let rest := s.dropWhile isDigitByte
  let fraction := fractionPart rest
  if fraction = [] then
    let mark : Bytes := if rest.head? = some 0x4c then [0x4c] else []
    .token ⟨.integer, ds ++ mark, line, some (.text ds)⟩
  else
    let text := ds ++ fraction ++ exponentPart (rest.drop fraction.length)
    match (Decimal.Number.ofText text).toBinary64? with
    | some value => .token ⟨.float, text, line, some (.real value)⟩
    | none => .fault text (.floatRange text line)

/-! ### Strings and quoted names -/

/-- The bytes before the closing quote; a backslash takes the next byte with it.
`none` when the text ends first. -/
def stringBody? (quote : UInt8) : Bytes → Option Bytes
  | [] => none
  | 0x5c :: [] => none
  | 0x5c :: b :: rest => (stringBody? quote rest).map (0x5c :: b :: ·)
  | b :: rest => if b = quote then some [] else (stringBody? quote rest).map (b :: ·)

/-- The line breaks in a string body, an escaped one not counted. -/
def bodyBreaks : Bytes → Nat
  | [] => 0
  | 0x5c :: [] => 0
  | 0x5c :: _ :: rest => bodyBreaks rest
  | b :: rest => (if b = 0x0a then 1 else 0) + bodyBreaks rest

/-- The body with each escaped quote replaced by the quote; other escapes stay. -/
def unescape (quote : UInt8) : Bytes → Bytes
  | [] => []
  | 0x5c :: [] => [0x5c]
  | 0x5c :: b :: rest => if b = quote then b :: unescape quote rest else 0x5c :: b :: unescape quote rest
  | b :: rest => b :: unescape quote rest

/-- The piece of a string that opens with `quote`; its line is the line of its end. -/
def stringPiece (line : Nat) (quote : UInt8) (rest : Bytes) : Piece :=
  match stringBody? quote rest with
  | some body =>
      .token ⟨.string, quote :: body ++ [quote], (line + bodyBreaks body : Nat),
        some (.text (mend (unescape quote body)))⟩
  | none => .fault (quote :: rest) (.unterminated (line + bodyBreaks rest))

/-- The piece of a name in backticks: it is not empty and stays on one line. -/
def quotedName (line : Nat) (rest : Bytes) : Piece :=
  let body := rest.takeWhile fun b => b != 0x60 && b != 0x0a
  if body ≠ [] && rest[body.length]? == some 0x60 then
    .token ⟨.ident, 0x60 :: body ++ [0x60], line, none⟩
  else .fault [0x60] (.unexpected (Char.ofNat 0x60) line)

/-! ### Pieces -/

def piece (line : Nat) (b : UInt8) (rest : Bytes) : Piece :=
  if b = 0x20 || b = 0x0d || b = 0x09 then .blank b
  else if b = 0x0a then .token ⟨.newline, b :: rest.takeWhile (· == 0x0a), line, none⟩
  else if b = 0x23 then .comment (b :: rest.takeWhile (· != 0x0a))
  else if b = 0x22 || b = 0x27 then stringPiece line b rest
  else if b = 0x60 then quotedName line rest
  else match operator? b rest.head? with
    | some (kind, two) => .token ⟨kind, if two then b :: rest.take 1 else [b], line, none⟩
    | none =>
        match single? b with
        | some kind => .token ⟨kind, [b], line, none⟩
        | none =>
            if isDigitByte b then number line (b :: rest)
            else if isNameStart b then .token (nameToken line (b :: rest.takeWhile isNameByte))
            else
              let r := headRune b rest
              .fault r.bytes (.unexpected r.char line)

def lineBreaks : Piece → Nat
  | .token t =>
      match t.kind with
      | .newline => t.lexeme.length
      | .string => bodyBreaks (t.lexeme.drop 1)
      | _ => 0
  | .fault text (.unterminated _) => bodyBreaks (text.drop 1)
  | _ => 0

/-- The pieces of `source` after its next `skip` bytes, and the line at its end. -/
def piecesAfter (line : Nat) : Nat → Bytes → List Piece × Nat
  | _, [] => ([], line)
  | skip + 1, _ :: rest => piecesAfter line skip rest
  | 0, b :: rest =>
      let p := piece line b rest
      let (ps, last) := piecesAfter (line + lineBreaks p) (p.text.length - 1) rest
      (p :: ps, last)

end Lexer

def pieces (source : Bytes) : List Piece × Nat :=
  Lexer.piecesAfter 1 0 source

inductive LexEvent where
  | token (t : Token)
  | fault (f : LexFault)
  deriving DecidableEq, Repr

namespace Piece

/-- The event of a piece; blanks and comments have none. -/
def event? : Piece → Option LexEvent
  | token t => some (.token t)
  | fault _ f => some (.fault f)
  | _ => none

end Piece

def Token.eof (line : Nat) : Token :=
  ⟨.eof, [], line, none⟩

def scan (source : Bytes) : List LexEvent :=
  let (ps, last) := pieces source
  ps.filterMap Piece.event? ++ [.token (Token.eof last)]

def tokens (source : Bytes) : List Token :=
  (scan source).filterMap fun
    | .token t => some t
    | .fault _ => none

def lexFaults (source : Bytes) : List LexFault :=
  (scan source).filterMap fun
    | .fault f => some f
    | .token _ => none

end RToJulia
