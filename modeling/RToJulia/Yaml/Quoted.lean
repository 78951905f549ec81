import RToJulia.Text.Integer
import RToJulia.Yaml.Break

/-!
# Quoted scalars

Text between double quotes has escapes; between single quotes only a doubled
quote is special.  Both fold line breaks: one break is a space, and each further
break stays.
-/

namespace RToJulia.Yaml

open Text

inductive Part where
  | content (text : Bytes)
  | blank (byte : UInt8)
  | lineBreak (byte : UInt8)
  /-- An escaped line break, which leaves nothing. -/
  | joint
  deriving DecidableEq, Repr

def foldParts : Pending → List Part → Bytes
  | p, [] => p.text
  | p, .content s :: rest => p.text ++ s ++ foldParts (.blanks []) rest
  | p, .blank b :: rest => foldParts (p.afterBlank b) rest
  | p, .lineBreak b :: rest => foldParts (p.afterBreak b) rest
  | p, .joint :: rest => p.text ++ foldParts (.breaks none []) rest

def Part.ofByte (b : UInt8) : Part :=
  if isBreak b then .lineBreak b
  else if b = 0x20 || b = 0x09 then .blank b
  else .content [b]

def escapes : List (Char × Nat) :=
  [('0', 0), ('a', 7), ('b', 8), ('t', 9), ('\t', 9), ('n', 10), ('v', 11), ('f', 12), ('r', 13),
   ('e', 27), (' ', 32), ('"', 34), ('/', 47), ('\\', 92), ('N', 0x85), ('_', 0xa0),
   ('L', 0x2028), ('P', 0x2029)]

def charOf? (n : Nat) : Option Bytes :=
  if n < 0xd800 || (0xdfff < n && n ≤ 0x10ffff) then some (String.utf8EncodeChar (Char.ofNat n))
  else none

/-- The part that an escape writes, and the number of bytes it takes after the backslash. -/
def escape? : Bytes → Option (Part × Nat)
  | [] => none
  | b :: rest =>
      let coded (width : Nat) : Option (Part × Nat) := do
        let n ← hexValue? width rest
        let s ← charOf? n
        some (.content s, width + 1)
      if isBreak b then some (.joint, 1)
      else if b = 0x78 then coded 2
      else if b = 0x75 then coded 4
      else if b = 0x55 then coded 8
      else (escapes.find? fun e => e.1.toNat = b.toNat).map fun e =>
        (.content (String.utf8EncodeChar (Char.ofNat e.2)), 1)

def doubleParts : Nat → Bytes → Option (List Part)
  | _, [] => some []
  | skip + 1, _ :: rest => doubleParts skip rest
  | 0, 0x5c :: rest => do
      let (part, taken) ← escape? rest
      let parts ← doubleParts taken rest
      some (part :: parts)
  | 0, b :: rest => do
      let parts ← doubleParts 0 rest
      some (Part.ofByte b :: parts)

def closeDouble : Bytes → Option (Bytes × Bytes)
  | [] => none
  | 0x22 :: rest => some ([], rest)
  | 0x5c :: b :: rest => (closeDouble rest).map fun r => (0x5c :: b :: r.1, r.2)
  | b :: rest => (closeDouble rest).map fun r => (b :: r.1, r.2)

def closeSingle : Bytes → Option (Bytes × Bytes)
  | [] => none
  | 0x27 :: 0x27 :: rest => (closeSingle rest).map fun r => (0x27 :: r.1, r.2)
  | 0x27 :: rest => some ([], rest)
  | b :: rest => (closeSingle rest).map fun r => (b :: r.1, r.2)

/-- The text of a scalar in double quotes, the number of lines it spans, and what follows it;
the opening quote has been read. -/
def readDouble? (s : Bytes) : Option (Bytes × Nat × Bytes) := do
  let (raw, rest) ← closeDouble s
  let parts ← doubleParts 0 raw
  some (foldParts (.blanks []) parts, raw.countP isBreak, rest)

def readSingle? (s : Bytes) : Option (Bytes × Nat × Bytes) := do
  let (raw, rest) ← closeSingle s
  some (foldParts (.blanks []) (raw.map Part.ofByte), raw.countP isBreak, rest)

end RToJulia.Yaml
