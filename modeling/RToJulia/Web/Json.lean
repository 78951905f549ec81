import RToJulia.Text.Utf8
import RToJulia.Text.Integer

/-!
# JSON

Reading the first value of a text, and writing strings.  Strings that are read
hold whole characters only: a byte or an escape that is none becomes U+FFFD.
Strings that are written escape what a web page would take for markup.
-/

namespace RToJulia.Web

open Text

/-- A JSON value; numbers are not told apart. -/
inductive Json where
  | null
  | truth (value : Bool)
  | number
  | text (s : Bytes)
  | array (items : List Json)
  | object (entries : List (Bytes × Json))
  deriving Repr, Inhabited

namespace Json

def isSpace (b : UInt8) : Bool :=
  b = 0x20 || b = 0x09 || b = 0x0a || b = 0x0d

def skipSpace (s : Bytes) : Bytes :=
  s.dropWhile isSpace

/-! ### Strings -/

/-- The inside of a string, raw, and what follows the closing quote. -/
def closeString : Bytes → Option (Bytes × Bytes)
  | [] => none
  | 0x22 :: rest => some ([], rest)
  | 0x5c :: b :: rest =>
      if b < 0x20 then none else (closeString rest).map fun r => (0x5c :: b :: r.1, r.2)
  | b :: rest => if b < 0x20 then none else (closeString rest).map fun r => (b :: r.1, r.2)

def escapes : List (Char × UInt8) :=
  [('b', 0x08), ('f', 0x0c), ('n', 0x0a), ('r', 0x0d), ('t', 0x09), ('"', 0x22), ('\\', 0x5c),
   ('/', 0x2f)]

def lowHalf? : Bytes → Option Nat
  | 0x5c :: 0x75 :: rest => do
      let n ← hexValue? 4 rest
      if 0xdc00 ≤ n && n ≤ 0xdfff then some n else none
  | _ => none

/-- The character of a code after `\u`, and the number of bytes it takes after the backslash.
Two halves of a surrogate pair are one character. -/
def coded (n : Nat) (after : Bytes) : Char × Nat :=
  if n < 0xd800 || 0xdfff < n then (Char.ofNat n, 5)
  else if 0xdbff < n then (Rune.replacement, 5)
  else
    match lowHalf? after with
    | some low => (Char.ofNat (0x10000 + (n - 0xd800) * 0x400 + (low - 0xdc00)), 11)
    | none => (Rune.replacement, 5)

/-- What an escape writes, and the number of bytes it takes after the backslash. -/
def escape? : Bytes → Option (Bytes × Nat)
  | [] => none
  | b :: rest =>
      if b = 0x75 then do
        let n ← hexValue? 4 rest
        let (c, taken) := coded n (rest.drop 4)
        some (String.utf8EncodeChar c, taken)
      else (escapes.find? fun e => e.1.toNat = b.toNat).map fun e => ([e.2], 1)

def unescape? : Nat → Bytes → Option Bytes
  | _, [] => some []
  | skip + 1, _ :: rest => unescape? skip rest
  | 0, 0x5c :: rest => do
      let (s, taken) ← escape? rest
      (unescape? taken rest).map (s ++ ·)
  | 0, b :: rest => (unescape? 0 rest).map (b :: ·)

def string? (s : Bytes) : Option (Bytes × Bytes) := do
  let (raw, rest) ← closeString s
  let text ← unescape? 0 (mend raw)
  some (text, rest)

/-! ### Numbers -/

def afterDigits? (s : Bytes) : Option Bytes :=
  if (s.head?.map isDigitByte).getD false then some (s.dropWhile isDigitByte) else none

/-- What follows the whole part of a number: a zero alone, or digits. -/
def afterWhole? : Bytes → Option Bytes
  | 0x30 :: rest => some rest
  | s => afterDigits? s

def afterFraction? : Bytes → Option Bytes
  | 0x2e :: rest => afterDigits? rest
  | s => some s

def afterExponent? : Bytes → Option Bytes
  | [] => some []
  | b :: rest =>
      if b = 0x65 || b = 0x45 then
        match rest with
        | 0x2b :: rest => afterDigits? rest
        | 0x2d :: rest => afterDigits? rest
        | rest => afterDigits? rest
      else some (b :: rest)

def afterNumber? (s : Bytes) : Option Bytes := do
  let s ← afterWhole? (dropLead "-" s)
  let s ← afterFraction? s
  afterExponent? s

/-! ### Values -/

def afterWord? (word : String) (s : Bytes) : Option Bytes :=
  if (utf8 word).isPrefixOf s then some (s.drop (utf8 word).length) else none

def maxNesting : Nat := 10000

mutual

def value? : Nat → Nat → Bytes → Option (Json × Bytes)
  | 0, _, _ => none
  | fuel + 1, level, s =>
      match s with
      | 0x22 :: rest => (string? rest).map fun r => (.text r.1, r.2)
      | 0x5b :: rest =>
          if maxNesting ≤ level then none
          else
            match skipSpace rest with
            | 0x5d :: rest => some (.array [], rest)
            | rest => (items? fuel (level + 1) rest).map fun r => (.array r.1, r.2)
      | 0x7b :: rest =>
          if maxNesting ≤ level then none
          else
            match skipSpace rest with
            | 0x7d :: rest => some (.object [], rest)
            | rest => (entries? fuel (level + 1) rest).map fun r => (.object r.1, r.2)
      | 0x6e :: _ => (afterWord? "null" s).map fun rest => (.null, rest)
      | 0x74 :: _ => (afterWord? "true" s).map fun rest => (.truth true, rest)
      | 0x66 :: _ => (afterWord? "false" s).map fun rest => (.truth false, rest)
      | _ => (afterNumber? s).map fun rest => (.number, rest)

def items? : Nat → Nat → Bytes → Option (List Json × Bytes)
  | 0, _, _ => none
  | fuel + 1, level, s => do
      let (v, rest) ← value? fuel level s
      match skipSpace rest with
      | 0x2c :: rest =>
          let (vs, last) ← items? fuel level (skipSpace rest)
          some (v :: vs, last)
      | 0x5d :: rest => some ([v], rest)
      | _ => none

def entries? : Nat → Nat → Bytes → Option (List (Bytes × Json) × Bytes)
  | 0, _, _ => none
  | fuel + 1, level, s =>
      match s with
      | 0x22 :: rest => do
          let (key, rest) ← string? rest
          match skipSpace rest with
          | 0x3a :: rest =>
              let (v, rest) ← value? fuel level (skipSpace rest)
              match skipSpace rest with
              | 0x2c :: rest =>
                  let (es, last) ← entries? fuel level (skipSpace rest)
                  some ((key, v) :: es, last)
              | 0x7d :: rest => some ([(key, v)], rest)
              | _ => none
          | _ => none
      | _ => none

end

/-- The first value of a text; what follows it does not count.  Every second step reads a
byte, so twice the length is enough. -/
def ofText? (s : Bytes) : Option Json :=
  (value? (2 * s.length + 2) 0 (skipSpace s)).map Prod.fst

/-! ### Writing -/

def writtenRune : Rune → Bytes
  | .stray _ => "\\ufffd"
  | .scalar c =>
      match escapes.find? fun e => e.2.toNat = c.toNat && e.1 ≠ '/' with
      | some e => 0x5c :: String.utf8EncodeChar e.1
      | none =>
          if c.toNat < 0x20 || c = '<' || c = '>' || c = '&' ||
              c.toNat = 0x2028 || c.toNat = 0x2029 then
            "\\u" ++ hex 4 c.toNat
          else String.utf8EncodeChar c

def written (s : Bytes) : Bytes :=
  0x22 :: (runes s).flatMap writtenRune ++ [0x22]

def field (key : String) (s : Bytes) : Bytes :=
  "\x7b" ++ written (utf8 key) ++ ":" ++ written s ++ "\x7d\n"

end Json

end RToJulia.Web
