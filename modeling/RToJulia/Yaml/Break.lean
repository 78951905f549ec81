import RToJulia.Text.Utf8

/-!
# Line breaks

Carriage returns, line feeds and next-line characters end a line alike.  Line and
paragraph separators end a line too, but stay what they are when lines are
joined; two control bytes that no document may hold stand for them.
-/

namespace RToJulia.Yaml

open Text

def isAllowed : Rune → Bool
  | .stray _ => false
  | .scalar c =>
      let n := c.toNat
      n = 0x09 || n = 0x0a || n = 0x0d || (0x20 ≤ n && n ≤ 0x7e) || n = 0x85 ||
        (0xa0 ≤ n && n ≤ 0xfffd && n ≠ 0xfeff) || 0x10000 ≤ n

def lineSeparator : UInt8 := 0x0b

def paragraphSeparator : UInt8 := 0x0c

def unifyBreaks : Bytes → Bytes
  | [] => []
  | 0x0d :: 0x0a :: rest => 0x0a :: unifyBreaks rest
  | 0x0d :: rest => 0x0a :: unifyBreaks rest
  | 0xc2 :: 0x85 :: rest => 0x0a :: unifyBreaks rest
  | 0xe2 :: 0x80 :: 0xa8 :: rest => lineSeparator :: unifyBreaks rest
  | 0xe2 :: 0x80 :: 0xa9 :: rest => paragraphSeparator :: unifyBreaks rest
  | b :: rest => b :: unifyBreaks rest

def isBreak (b : UInt8) : Bool :=
  b = 0x0a || b = lineSeparator || b = paragraphSeparator

def breakText (b : UInt8) : Bytes :=
  if b = lineSeparator then [0xe2, 0x80, 0xa8]
  else if b = paragraphSeparator then [0xe2, 0x80, 0xa9]
  else [0x0a]

inductive Pending where
  | blanks (text : Bytes)
  /-- Line breaks: the first, unless it was escaped, and the text of the others. -/
  | breaks (first : Option UInt8) (others : Bytes)
  deriving DecidableEq, Repr

namespace Pending

/-- The text that joins two pieces.  A single line feed becomes a space, and the first of
several is dropped. -/
def text : Pending → Bytes
  | blanks s => s
  | breaks none others => others
  | breaks (some b) others =>
      if b = 0x0a then (if others = [] then [0x20] else others) else breakText b ++ others

def afterBreak (b : UInt8) : Pending → Pending
  | blanks _ => breaks (some b) []
  | breaks first others => breaks first (others ++ breakText b)

/-- Add a blank; those at the start of a line do not count. -/
def afterBlank (b : UInt8) : Pending → Pending
  | blanks s => blanks (s ++ [b])
  | breaks first others => breaks first others

end Pending

end RToJulia.Yaml
