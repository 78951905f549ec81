/-!
# Byte strings

Program text is a sequence of bytes that need not be valid UTF-8.  String
literals stand for their UTF-8 bytes.
-/

namespace RToJulia

abbrev Bytes := List UInt8

instance : LawfulBEq Bytes := inferInstanceAs (LawfulBEq (List UInt8))

namespace Text

def utf8 (s : String) : Bytes :=
  s.toByteArray.data.toList

instance : Coe String Bytes := ⟨utf8⟩

def decimal (n : Nat) : Bytes :=
  (Nat.toDigits 10 n).map fun c => UInt8.ofNat c.toNat

def signedDecimal : Int → Bytes
  | .ofNat n => decimal n
  | .negSucc n => 0x2d :: decimal (n + 1)

def hexDigit (n : Nat) : UInt8 :=
  if n < 10 then UInt8.ofNat (0x30 + n) else UInt8.ofNat (0x57 + n)

def hex : Nat → Nat → Bytes
  | 0, _ => []
  | width + 1, n => hex width (n / 16) ++ [hexDigit (n % 16)]

def dropLead (lead s : Bytes) : Bytes :=
  if lead.isPrefixOf s then s.drop lead.length else s

def dropTail (tail s : Bytes) : Bytes :=
  if tail.isSuffixOf s then s.take (s.length - tail.length) else s

/-- The parts of `s` before and after the first `b`. -/
def cut (b : UInt8) (s : Bytes) : Bytes × Bytes :=
  (s.takeWhile (· != b), (s.dropWhile (· != b)).drop 1)

def joinNonempty (separator : Bytes) (parts : List Bytes) : Bytes :=
  separator.intercalate (parts.filter (· ≠ []))

/-- Whether `s` does not come after `t` in the order by bytes. -/
def inOrder : Bytes → Bytes → Bool
  | [], _ => true
  | _ :: _, [] => false
  | a :: s, b :: t => a < b || (a == b && inOrder s t)

def isDigitByte (b : UInt8) : Bool :=
  0x30 ≤ b && b ≤ 0x39

def lowerByte (b : UInt8) : UInt8 :=
  if 0x41 ≤ b && b ≤ 0x5a then b + 0x20 else b

def digitsValue (ds : Bytes) : Nat :=
  ds.foldl (fun n d => 10 * n + (d.toNat - 0x30)) 0

end Text

end RToJulia
