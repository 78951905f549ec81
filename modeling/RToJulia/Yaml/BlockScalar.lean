import RToJulia.Yaml.Flow

/-!
# Block scalars

A bar or an angle bracket starts a scalar of whole lines that are indented
alike.  After a bar the lines stay as they are; after an angle bracket lines that
start with no blank are folded into one.
-/

namespace RToJulia.Yaml

open Text

inductive Chomp where
  | strip
  | clip
  | keep
  deriving DecidableEq, Repr

/-- The marks after the first: how to end, and by how much the lines are indented. -/
structure Header where
  chomp : Chomp := .clip
  indent : Option Nat := none
  deriving DecidableEq, Repr

def chompOf? (b : UInt8) : Option Chomp :=
  if b = 0x2b then some .keep else if b = 0x2d then some .strip else none

def indentOf? (b : UInt8) : Option Nat :=
  if isDigitByte b && b ≠ 0x30 then some (b.toNat - 0x30) else none

/-- The marks of a header, in either order, and what follows them. -/
def header : Bytes → Header × Bytes
  | [] => ({}, [])
  | a :: rest =>
      match chompOf? a, indentOf? a with
      | some chomp, _ =>
          match rest.head?.bind indentOf? with
          | some n => ({ chomp, indent := some n }, rest.drop 1)
          | none => ({ chomp }, rest)
      | none, some n =>
          match rest.head?.bind chompOf? with
          | some chomp => ({ chomp, indent := some n }, rest.drop 1)
          | none => ({ indent := some n }, rest)
      | none, none => ({}, a :: rest)

def lineIsOver (s : Bytes) : Bool :=
  match s.dropWhile isInlineBlank with
  | [] => true
  | b :: _ => isBreak b || b = 0x23

def Place.nextLine (p : Place) : Place :=
  match p.rest.dropWhile (!isBreak ·) with
  | [] => ⟨[], p.line⟩
  | _ :: rest => ⟨rest, p.line + 1⟩

def Place.lineText (p : Place) : Bytes :=
  p.rest.takeWhile (!isBreak ·)

def Place.lineBreak (p : Place) : Option UInt8 :=
  (p.rest.dropWhile (!isBreak ·)).head?

def spacesOf (s : Bytes) : Nat :=
  (s.takeWhile (· == 0x20)).length

/-- The indentation of the first line that holds more than spaces, or of a longer empty one before
it, within a number of lines; `none` if a tab stands there. -/
def ownIndent? : Nat → Nat → Place → Option Nat
  | 0, widest, _ => some widest
  | fuel + 1, widest, p =>
      let text := p.lineText
      let widest := max widest (spacesOf text)
      match text.drop (spacesOf text) with
      | [] => if p.lineBreak.isSome then ownIndent? fuel widest p.nextLine else some widest
      | b :: _ => if b = 0x09 then none else some widest

/-- A block scalar in the making: the text so far, the break after its last line, the empty lines
after that, and whether the last line starts with a blank. -/
structure Draft where
  text : Bytes := []
  lead : Option UInt8 := none
  trail : Bytes := []
  blank : Bool := false

def Draft.add (folded : Bool) (d : Draft) (line : Bytes) (lead : Option UInt8) : Draft :=
  let blank := (line.head?.map isInlineBlank).getD false
  let fold := folded && !d.blank && !blank && d.lead = some 0x0a
  let join :=
    if fold then (if d.trail = [] then [0x20] else [])
    else (d.lead.map breakText).getD []
  { text := d.text ++ join ++ d.trail ++ line, lead, trail := [], blank }

def blockLines? (folded : Bool) (indent : Nat) : Nat → Draft → Place → Option (Draft × Place)
  | 0, _, _ => none
  | fuel + 1, d, p =>
      let text := p.lineText
      let taken := min indent (spacesOf text)
      match text.drop taken with
      | [] =>
          match p.lineBreak with
          | some b =>
              blockLines? folded indent fuel { d with trail := d.trail ++ breakText b } p.nextLine
          | none => some (d, ⟨[], p.line⟩)
      | b :: rest =>
          if taken < indent then (if b = 0x09 then none else some (d, p))
          else blockLines? folded indent fuel (d.add folded (b :: rest) p.lineBreak) p.nextLine

def Draft.finish (d : Draft) : Chomp → Bytes
  | .strip => d.text
  | .clip => d.text ++ (d.lead.map breakText).getD []
  | .keep => d.text ++ (d.lead.map breakText).getD [] ++ d.trail

/-- A block scalar whose lines are indented by at least `floor`, and the place of the line after
it. -/
def blockScalar? (floor : Nat) (p : Place) : Option (Value × Place) := do
  let folded := p.rest.head? == some 0x3e
  let (h, rest) := header (p.rest.drop 1)
  if !lineIsOver rest then none
  else
    let q := p.nextLine
    let indent ← match h.indent with
      | some n => some (floor - 1 + n)
      | none => (ownIndent? (q.rest.length + 1) 0 q).map fun n => max (max n floor) 1
    let (d, last) ← blockLines? folded indent (q.rest.length + 2) {} q
    some (.scalar p.line (d.finish h.chomp) false, last)

end RToJulia.Yaml
