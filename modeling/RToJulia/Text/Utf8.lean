import RToJulia.Text.Bytes

/-!
# UTF-8

Reading a byte string rune by rune.  A byte that starts no well-formed sequence
(a stray continuation, an overlong form, a surrogate, a value past the last
scalar) is a rune of its own, one byte at a time.
-/

namespace RToJulia.Text

inductive Rune where
  /-- A well-formed sequence. -/
  | scalar (c : Char)
  /-- A byte that belongs to no well-formed sequence. -/
  | stray (byte : UInt8)
  deriving DecidableEq, Repr

namespace Rune

def replacement : Char := Char.ofNat 0xFFFD

/-- The character shown for a rune; a stray byte shows as U+FFFD. -/
def char : Rune → Char
  | scalar c => c
  | stray _ => replacement

def bytes : Rune → Bytes
  | scalar c => String.utf8EncodeChar c
  | stray b => [b]

end Rune

def isContinuation (b : UInt8) : Bool :=
  0x80 ≤ b && b ≤ 0xBF

def payload (b : UInt8) : Nat :=
  b.toNat % 64

/-- The second byte allowed after a lead byte: it keeps out overlong forms, surrogates
and values past the last scalar. -/
def isSecond (lead b : UInt8) : Bool :=
  if lead == 0xE0 then 0xA0 ≤ b && b ≤ 0xBF
  else if lead == 0xED then 0x80 ≤ b && b ≤ 0x9F
  else if lead == 0xF0 then 0x90 ≤ b && b ≤ 0xBF
  else if lead == 0xF4 then 0x80 ≤ b && b ≤ 0x8F
  else isContinuation b

def headRune (b : UInt8) (rest : Bytes) : Rune :=
  if b < 0x80 then .scalar (Char.ofNat b.toNat)
  else if 0xC2 ≤ b && b ≤ 0xDF then
    match rest with
    | b₁ :: _ =>
        if isContinuation b₁ then .scalar (Char.ofNat (b.toNat % 32 * 64 + payload b₁))
        else .stray b
    | [] => .stray b
  else if 0xE0 ≤ b && b ≤ 0xEF then
    match rest with
    | b₁ :: b₂ :: _ =>
        if isSecond b b₁ && isContinuation b₂ then
          .scalar (Char.ofNat ((b.toNat % 16 * 64 + payload b₁) * 64 + payload b₂))
        else .stray b
    | _ => .stray b
  else if 0xF0 ≤ b && b ≤ 0xF4 then
    match rest with
    | b₁ :: b₂ :: b₃ :: _ =>
        if isSecond b b₁ && isContinuation b₂ && isContinuation b₃ then
          .scalar (Char.ofNat (((b.toNat % 8 * 64 + payload b₁) * 64 + payload b₂) * 64 + payload b₃))
        else .stray b
    | _ => .stray b
  else .stray b

/-- The runes after the next `skip` bytes. -/
def runesAfter : Nat → Bytes → List Rune
  | _, [] => []
  | skip + 1, _ :: rest => runesAfter skip rest
  | 0, b :: rest =>
      let r := headRune b rest
      r :: runesAfter (r.bytes.length - 1) rest

def runes (s : Bytes) : List Rune :=
  runesAfter 0 s

def chars (s : Bytes) : List Char :=
  (runes s).map Rune.char

def encode (cs : List Char) : Bytes :=
  cs.flatMap String.utf8EncodeChar

def mend (s : Bytes) : Bytes :=
  encode (chars s)

def isUtf8 (s : Bytes) : Bool :=
  (runes s).all fun
    | .scalar _ => true
    | .stray _ => false

/-! ## White space -/

def isBlank (c : Char) : Bool :=
  let n := c.toNat
  (0x09 ≤ n && n ≤ 0x0d) || n == 0x20 || n == 0x85 || n == 0xa0 || n == 0x1680 ||
    (0x2000 ≤ n && n ≤ 0x200a) || n == 0x2028 || n == 0x2029 || n == 0x202f ||
    n == 0x205f || n == 0x3000

def Rune.isBlank : Rune → Bool
  | .scalar c => Text.isBlank c
  | .stray _ => false

def trim (s : Bytes) : Bytes :=
  let front := (runes s).dropWhile Rune.isBlank
  let both := (front.reverse.dropWhile Rune.isBlank).reverse
  both.flatMap Rune.bytes

end RToJulia.Text
