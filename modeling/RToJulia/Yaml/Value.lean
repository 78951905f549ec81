import RToJulia.Decimal.Read
import RToJulia.Text.Integer
import RToJulia.Yaml.Timestamp

/-!
# Values of a YAML document

A document is a tree of scalars, sequences and mappings, each with the line it
starts on.  A scalar without quotes has a kind that is read off its text.
-/

namespace RToJulia.Yaml

open Text

inductive Value where
  | scalar (line : Nat) (text : Bytes) (plain : Bool)
  | sequence (line : Nat) (items : List Value)
  | mapping (line : Nat) (entries : List (Value × Value))
  deriving Repr, Inhabited

inductive Meaning where
  | null
  | truth (value : Bool)
  | integer (value : Int)
  | real (value : Decimal.Binary64)
  | timestamp
  | text
  deriving DecidableEq, Repr

def words : List (String × Meaning) :=
  [("", .null), ("~", .null), ("null", .null), ("Null", .null), ("NULL", .null),
   ("true", .truth true), ("True", .truth true), ("TRUE", .truth true),
   ("false", .truth false), ("False", .truth false), ("FALSE", .truth false),
   (".nan", .real .undefined), (".NaN", .real .undefined), (".NAN", .real .undefined),
   (".inf", .real (.infinite false)), (".Inf", .real (.infinite false)),
   (".INF", .real (.infinite false)), ("+.inf", .real (.infinite false)),
   ("+.Inf", .real (.infinite false)), ("+.INF", .real (.infinite false)),
   ("-.inf", .real (.infinite true)), ("-.Inf", .real (.infinite true)),
   ("-.INF", .real (.infinite true))]

def isExponent : Bytes → Bool
  | [] => true
  | b :: rest =>
      let digits := (Decimal.splitSign rest).2
      (b = 0x65 || b = 0x45) && digits ≠ [] && digits.all isDigitByte

def isReal (s : Bytes) : Bool :=
  let (whole, s) := ((Decimal.splitSign s).2).span isDigitByte
  let (fraction, s') := Decimal.splitFraction s
  (whole ≠ [] || fraction ≠ []) && isExponent s'

/-- The number after the mark of a base, with a sign of its own. -/
def afterMark? (mark : String) (base : Nat) (s : Bytes) : Option Int :=
  let digits := s.drop (utf8 mark).length
  if (utf8 mark).isPrefixOf s then (withSign (readMagnitude base) digits).toOption else none

/-- The number a text writes, if it writes one: an integer of 64 bits, with or without a
sign, or a decimal number.  Underscores do not count. -/
def numberOf? (s : Bytes) : Option Meaning :=
  let digits := s.filter (· != 0x5f)
  match readBasedInteger digits, readBased digits with
  | .ok n, _ => some (.integer n)
  | .error _, .ok n => some (.integer n)
  | .error _, .error _ =>
      let real := if isReal digits then (Decimal.Number.ofText digits).toBinary64? else none
      match real, afterMark? "0b" 2 digits, afterMark? "0o" 8 digits with
      | some x, _, _ => some (.real x)
      | none, some n, _ => some (.integer n)
      | none, none, some n => some (.integer n)
      | none, none, none => none

def meaningOf (s : Bytes) : Meaning :=
  match words.find? fun w => utf8 w.1 = s with
  | some w => w.2
  | none =>
      match s with
      | [] => .null
      | b :: _ =>
          if isDigitByte b || b = 0x2b || b = 0x2d then
            if isTimestamp s then .timestamp else (numberOf? s).getD .text
          else if b = 0x2e && isReal s then
            ((Decimal.Number.ofText s).toBinary64?.map Meaning.real).getD .text
          else .text

namespace Value

def line : Value → Nat
  | scalar line _ _ => line
  | sequence line _ => line
  | mapping line _ => line

def tag : Value → Bytes
  | sequence _ _ => "!!seq"
  | mapping _ _ => "!!map"
  | scalar _ _ false => "!!str"
  | scalar _ s true =>
      match meaningOf s with
      | .null => "!!null"
      | .truth _ => "!!bool"
      | .integer _ => "!!int"
      | .real _ => "!!float"
      | .timestamp => "!!timestamp"
      | .text => "!!str"

end Value

end RToJulia.Yaml
