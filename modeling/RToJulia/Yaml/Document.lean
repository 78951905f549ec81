import RToJulia.Yaml.BlockScalar

/-!
# Documents

A document holds one value.  Lines with a dash at one column are the items of a
sequence, and lines with a key at one column are the entries of a mapping; what
belongs to an item or a key follows on its line or on lines further right.
-/

namespace RToJulia.Yaml

open Text

/-- The place of the first line that holds more than blanks and a comment, within a number of
lines. -/
def contentFrom : Nat → Place → Place
  | 0, p => p
  | fuel + 1, p => if p.rest ≠ [] && lineIsOver p.rest then contentFrom fuel p.nextLine else p

def Place.content (p : Place) : Place :=
  contentFrom p.rest.length p

def Place.isEnd (p : Place) : Bool :=
  p.rest = [] || isMarker "---" p.rest || isMarker "..." p.rest

def Place.column (p : Place) : Nat :=
  spacesOf p.rest

def Place.inside (p : Place) : Place :=
  ⟨p.rest.drop p.column, p.line⟩

def startsItem : Bytes → Bool
  | 0x2d :: rest => atGap rest
  | _ => false

def keyAndColon? (p : Place) : Option (Value × Place) := do
  let (key, after) ← key? p
  match after.rest.dropWhile isInlineBlank with
  | 0x3a :: rest =>
      let colon : Place := ⟨0x3a :: rest, after.line⟩
      if mayBeKey p colon && atGap rest then some (key, ⟨rest, p.line⟩) else none
  | _ => none

/-- A value that ends its line, with the place of the line after it. -/
def endLine (r : Value × Place) : Option (Value × Place) :=
  if lineIsOver r.2.rest then some (r.1, r.2.nextLine) else none

mutual

/-- A value within a depth, and the place of a line after it.  Lines that go on with it are indented
by at least `floor`; a sequence or mapping of lines may start here only at a given column. -/
def value? : Nat → Nat → Option Nat → Place → Option (Value × Place)
  | 0, _, _, _ => none
  | depth + 1, floor, column, p =>
      if startsItem p.rest then
        match column with
        | some c => (items? depth c p).map fun r => (.sequence p.line r.1, r.2)
        | none => none
      else if p.rest.head? == some 0x5b || p.rest.head? == some 0x7b then (flow? p).bind endLine
      else if p.rest.head? == some 0x7c || p.rest.head? == some 0x3e then blockScalar? floor p
      else
        match column, keyAndColon? p with
        | some c, some _ => (entries? depth c p).map fun r => (.mapping p.line r.1, r.2)
        | _, _ => (scalar? false floor p).bind endLine

def entryValue? : Nat → Nat → Place → Option (Value × Place)
  | 0, _, _ => none
  | depth + 1, c, p =>
      if !lineIsOver p.rest then
        value? depth (c + 1) none ⟨p.rest.dropWhile isInlineBlank, p.line⟩
      else
        let q := p.nextLine.content
        if q.isEnd then some (emptyAt p, q)
        else if c < q.column then value? depth (c + 1) (some q.column) q.inside
        else if q.column = c && startsItem q.inside.rest then
          (items? depth c q.inside).map fun r => (.sequence q.line r.1, r.2)
        else some (emptyAt p, q)

def itemValue? : Nat → Nat → Place → Option (Value × Place)
  | 0, _, _ => none
  | depth + 1, c, p =>
      if !lineIsOver p.rest then
        let blanks := (p.rest.takeWhile isInlineBlank).length
        value? depth (c + 1) (some (c + 1 + blanks)) ⟨p.rest.drop blanks, p.line⟩
      else
        let q := p.nextLine.content
        if !q.isEnd && c < q.column then value? depth (c + 1) (some q.column) q.inside
        else some (emptyAt p, q)

def entries? : Nat → Nat → Place → Option (List (Value × Value) × Place)
  | 0, _, _ => none
  | depth + 1, c, p => do
      let (key, after) ← keyAndColon? p
      let (v, last) ← entryValue? depth c after
      let q := last.content
      if q.isEnd || q.column < c then some ([(key, v)], q)
      else if q.column = c then
        let (rest, tail) ← entries? depth c q.inside
        some ((key, v) :: rest, tail)
      else none

def items? : Nat → Nat → Place → Option (List Value × Place)
  | 0, _, _ => none
  | depth + 1, c, p => do
      let (v, last) ← itemValue? depth c ⟨p.rest.drop 1, p.line⟩
      let q := last.content
      if q.isEnd || q.column < c then some ([v], q)
      else if q.column = c then
        if startsItem q.inside.rest then
          let (rest, tail) ← items? depth c q.inside
          some (v :: rest, tail)
        else some ([v], q)
      else none

end

/-- The value of a document from a place; every fourth step reads a byte. -/
def body? (column : Option Nat) (p : Place) : Option Value := do
  let (v, last) ← value? (4 * p.rest.length + 4) 0 column p
  if last.content.isEnd then some v else none

def read? (s : Bytes) : Option Value :=
  let s := dropLead [0xef, 0xbb, 0xbf] s
  if !(runes s).all isAllowed then none
  else
    let p := Place.content ⟨unifyBreaks s, 1⟩
    if isMarker "---" p.rest then
      let q : Place := ⟨p.rest.drop 3, p.line⟩
      if lineIsOver q.rest then
        let q := q.nextLine.content
        if q.isEnd then some (emptyAt q) else body? (some q.column) q.inside
      else body? none ⟨q.rest.dropWhile isInlineBlank, q.line⟩
    else if p.isEnd then some (emptyAt p)
    else body? (some p.column) p.inside

end RToJulia.Yaml
