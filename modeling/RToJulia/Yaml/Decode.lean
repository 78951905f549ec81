import RToJulia.Text.Quoted
import RToJulia.Yaml.Value

/-!
# Values as data of a wanted type

A null leaves what was there before.  Text takes the text of every scalar,
integers also take decimal numbers without their fraction, and truth values also
take a few words.
-/

namespace RToJulia.Yaml

open Text

inductive Misfit where
  /-- A value of a kind that the wanted type does not take. -/
  | kind (value : Value) (wanted : Bytes)
  /-- A key that an earlier line has. -/
  | repeated (key : Bytes) (line earlier : Nat)

/-- The text of a value inside a message: a scalar's text, shortened past ten bytes. -/
def Value.excerpt : Value → Bytes
  | .scalar _ s _ =>
      if 10 < s.length then " \x60" ++ s.take 7 ++ "...\x60" else " \x60" ++ s ++ "\x60"
  | _ => []

def Misfit.message : Misfit → Bytes
  | kind v wanted =>
      "line " ++ decimal v.line ++ ": cannot unmarshal " ++ v.tag ++ v.excerpt ++ " into " ++ wanted
  | repeated key line earlier =>
      "line " ++ decimal line ++ ": mapping key " ++ quoted key ++ " already defined at line " ++
        decimal earlier

/-- The integer part of a number toward zero, if it is at most 2 ^ 63; past the other end, and
at 2 ^ 63 itself, it is the least integer of 64 bits. -/
def truncate? : Decimal.Binary64 → Option Int
  | .undefined => none
  | .infinite negative => if negative then some (-limit) else none
  | .finite negative m e =>
      let n : Nat := m * Nat.pow 2 e.toNat / Nat.pow 2 (-e).toNat
      let exact := m * Nat.pow 2 e.toNat = n * Nat.pow 2 (-e).toNat
      if negative then some (if n < limit then -n else -limit)
      else if n < limit then some n
      else if n = limit && exact then some (-limit)
      else none
where
  limit : Nat := Nat.pow 2 63

def Value.isNull : Value → Bool
  | .scalar _ s true => meaningOf s = .null
  | _ => false

def Value.toInteger (before : Int) (v : Value) : Except Misfit Int :=
  match v with
  | .scalar _ s true =>
      match meaningOf s with
      | .null => .ok before
      | .integer n => if n < Nat.pow 2 63 then .ok n else .error (.kind v "int")
      | .real x =>
          match truncate? x with
          | some n => .ok n
          | none => .error (.kind v "int")
      | _ => .error (.kind v "int")
  | _ => .error (.kind v "int")

/-- The truth value of a word that only counts as one where a truth value is wanted. -/
def wordTruth? (s : Bytes) : Option Bool :=
  let among (words : List String) := words.any fun w => utf8 w = s
  if among ["y", "Y", "yes", "Yes", "YES", "on", "On", "ON"] then some true
  else if among ["n", "N", "no", "No", "NO", "off", "Off", "OFF"] then some false
  else none

def Value.toTruth (before : Bool) (v : Value) : Except Misfit Bool :=
  match v with
  | .scalar _ s plain =>
      match (if plain then meaningOf s else .text) with
      | .null => .ok before
      | .truth b => .ok b
      | .text =>
          match wordTruth? s with
          | some b => .ok b
          | none => .error (.kind v "bool")
      | _ => .error (.kind v "bool")
  | _ => .error (.kind v "bool")

def Value.toText (before : Bytes) (v : Value) : Except Misfit Bytes :=
  match v with
  | .scalar _ s _ => if v.isNull then .ok before else .ok s
  | _ => .error (.kind v "string")

def keyText? : Value → Option Bytes
  | .scalar _ s _ => some s
  | _ => none

/-- The entries of a mapping that repeat the key of an entry before them, by the earlier one. -/
def repeatedKeys : List (Value × Value) → List Misfit
  | [] => []
  | (k, _) :: rest =>
      (match keyText? k with
        | none => []
        | some key => rest.filterMap fun e =>
            if keyText? e.1 = some key then some (.repeated key e.1.line k.line) else none) ++
      repeatedKeys rest

end RToJulia.Yaml
