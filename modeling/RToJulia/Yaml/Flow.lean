import RToJulia.Yaml.Value
import RToJulia.Yaml.Quoted

/-!
# Scalars and flow values

Scalars in quotes and without, and values written with brackets and braces.  All
of them may go over several lines, but a key and its colon stand on one line.
-/

namespace RToJulia.Yaml

open Text

/-- A place in a document: what is left of it, and the number of its line. -/
structure Place where
  rest : Bytes
  line : Nat

def isInlineBlank (b : UInt8) : Bool :=
  b = 0x20 || b = 0x09

def atGap : Bytes → Bool
  | [] => true
  | b :: _ => isInlineBlank b || isBreak b

/-- Skip blanks, comments and line breaks; `comment` tells whether a comment is open. -/
def skipGaps : Bool → Bytes → Nat → Place
  | _, [], line => ⟨[], line⟩
  | comment, b :: rest, line =>
      if isBreak b then skipGaps false rest (line + 1)
      else if comment || isInlineBlank b then skipGaps comment rest line
      else if b = 0x23 then skipGaps true rest line
      else ⟨b :: rest, line⟩

def Place.next (p : Place) : Place :=
  skipGaps false p.rest p.line

/-- Whether a line starts with a mark of three bytes that begins or ends a document. -/
def isMarker (mark : String) (s : Bytes) : Bool :=
  (utf8 mark).isPrefixOf s && atGap (s.drop 3)

/-! ### Plain scalars -/

def isFlowMark (b : UInt8) : Bool :=
  b = 0x2c || b = 0x5b || b = 0x5d || b = 0x7b || b = 0x7d

def isIndicator (b : UInt8) : Bool :=
  isFlowMark b || (utf8 "#&*!|>'\"%@").contains b || b = 0x60

def startsPlain (flow : Bool) : Bytes → Bool
  | [] => false
  | b :: rest =>
      if b = 0x2d then !atGap rest
      else if b = 0x3f || b = 0x3a then !flow && !atGap rest
      else !isIndicator b && !isInlineBlank b && !isBreak b

/-- The part of a plain scalar on one line, and what follows it.  It ends before a line break,
a comment, a colon that divides a key from its value and, inside a flow value, punctuation. -/
def takePlain (flow : Bool) : Bytes → Bytes × Bytes
  | [] => ([], [])
  | b :: rest =>
      let comment := isInlineBlank b && rest.head? == some 0x23
      let divides := b = 0x3a && atGap rest
      let mark := flow && (isFlowMark b || b = 0x3f)
      if isBreak b || comment || divides || mark then ([], b :: rest)
      else
        let (s, after) := takePlain flow rest
        (b :: s, after)

def dropBlanks (s : Bytes) : Bytes :=
  (s.reverse.dropWhile isInlineBlank).reverse

/-- The line breaks from here on, up to the blanks of the next line with content, and the place
there. -/
def takeBreaks : Nat → Pending → Place → Pending × Place
  | 0, pending, p => (pending, p)
  | fuel + 1, pending, p =>
      match p.rest.dropWhile isInlineBlank with
      | b :: rest =>
          if isBreak b then takeBreaks fuel (pending.afterBreak b) ⟨rest, p.line + 1⟩
          else (pending, p)
      | [] => (pending, ⟨[], p.line⟩)

/-- Whether a line, from its start, goes on with a plain scalar: it is indented by at least
`floor` and holds neither a comment nor a document mark. -/
def continues (flow : Bool) (floor : Nat) (s : Bytes) : Bool :=
  let blanks := s.takeWhile isInlineBlank
  let content := s.dropWhile isInlineBlank
  (flow || floor ≤ blanks.length) && content.head? != some 0x23 && content ≠ [] &&
    !isMarker "---" s && !isMarker "..." s && (takePlain flow content).1 ≠ []

/-- Whether a tab stands where a line has to be indented by spaces. -/
def hasTabIn (floor : Nat) (s : Bytes) : Bool :=
  ((s.takeWhile isInlineBlank).take floor).contains 0x09

def plain? (flow : Bool) (floor : Nat) : Nat → Place → Option (Bytes × Place)
  | 0, _ => none
  | fuel + 1, p =>
      let (text, after) := takePlain flow p.rest
      let text := dropBlanks text
      let here : Place := ⟨after, p.line⟩
      if !(after.head?.map isBreak).getD false then some (text, here)
      else
        let (pending, q) := takeBreaks after.length (.blanks []) here
        if !continues flow floor q.rest then some (text, here)
        else if !flow && hasTabIn floor q.rest then none
        else do
          let (more, last) ← plain? flow floor fuel ⟨q.rest.dropWhile isInlineBlank, q.line⟩
          some (text ++ pending.text ++ more, last)

def quoted? (p : Place) : Option (Value × Place) :=
  match p.rest with
  | 0x22 :: rest => do
      let (s, lines, after) ← readDouble? rest
      some (.scalar p.line s false, ⟨after, p.line + lines⟩)
  | 0x27 :: rest => do
      let (s, lines, after) ← readSingle? rest
      some (.scalar p.line s false, ⟨after, p.line + lines⟩)
  | _ => none

def atQuote (s : Bytes) : Bool :=
  s.head? == some 0x22 || s.head? == some 0x27

def scalar? (flow : Bool) (floor : Nat) (p : Place) : Option (Value × Place) :=
  if atQuote p.rest then quoted? p
  else if startsPlain flow p.rest then do
    let (text, after) ← plain? flow floor (p.rest.length + 1) p
    some (.scalar p.line text true, after)
  else none

/-- A scalar that may be a key: it does not go on after its line. -/
def key? (p : Place) : Option (Value × Place) :=
  if atQuote p.rest then quoted? p
  else if startsPlain false p.rest then
    let (text, after) := takePlain false p.rest
    some (.scalar p.line (dropBlanks text) true, ⟨after, p.line⟩)
  else none

def maxKey : Nat := 1024

/-- Whether a colon at `colon` can belong to a key that starts at `start`: both are on one line and
not too far apart. -/
def mayBeKey (start colon : Place) : Bool :=
  let key := start.rest.take (start.rest.length - colon.rest.length)
  start.line = colon.line && (runes key).length ≤ maxKey

/-! ### Flow values -/

def emptyAt (p : Place) : Value :=
  .scalar p.line [] true

mutual

def flowValue? : Nat → Place → Option (Value × Place)
  | 0, _ => none
  | depth + 1, p =>
      match p.rest with
      | 0x5b :: rest => do
          let (items, after) ← flowItems? depth (Place.next ⟨rest, p.line⟩)
          some (.sequence p.line items, after)
      | 0x7b :: rest => do
          let (entries, after) ← flowEntries? depth (Place.next ⟨rest, p.line⟩)
          some (.mapping p.line entries, after)
      | _ => scalar? true 0 p

/-- The value after a key that starts at `start`, if a colon stands here; otherwise the empty
scalar. -/
def flowAfterKey? (start : Place) : Nat → Place → Option (Bool × Value × Place)
  | 0, _ => none
  | depth + 1, p =>
      match p.rest with
      | 0x3a :: rest =>
          if !mayBeKey start p then none
          else
            let q := Place.next ⟨rest, p.line⟩
            match q.rest with
            | [] => none
            | b :: _ =>
                if b = 0x2c || b = 0x5d || b = 0x7d then some (true, emptyAt q, q)
                else (flowValue? depth q).map fun r => (true, r.1, r.2.next)
      | _ => some (false, emptyAt p, p)

def flowItems? : Nat → Place → Option (List Value × Place)
  | 0, _ => none
  | depth + 1, p =>
      match p.rest with
      | 0x5d :: rest => some ([], ⟨rest, p.line⟩)
      | _ => do
          let (v, after) ← flowValue? depth p
          let (keyed, w, after) ← flowAfterKey? p depth after.next
          let item := if keyed then Value.mapping p.line [(v, w)] else v
          match after.rest with
          | 0x2c :: rest =>
              let (items, last) ← flowItems? depth (Place.next ⟨rest, after.line⟩)
              some (item :: items, last)
          | 0x5d :: rest => some ([item], ⟨rest, after.line⟩)
          | _ => none

def flowEntries? : Nat → Place → Option (List (Value × Value) × Place)
  | 0, _ => none
  | depth + 1, p =>
      match p.rest with
      | 0x7d :: rest => some ([], ⟨rest, p.line⟩)
      | _ => do
          let (k, after) ← flowValue? depth p
          let (_, v, after) ← flowAfterKey? p depth after.next
          match after.rest with
          | 0x2c :: rest =>
              let (entries, last) ← flowEntries? depth (Place.next ⟨rest, after.line⟩)
              some ((k, v) :: entries, last)
          | 0x7d :: rest => some ([(k, v)], ⟨rest, after.line⟩)
          | _ => none

end

/-- A flow value; every step reads at least one byte, so a depth of twice the length is enough. -/
def flow? (p : Place) : Option (Value × Place) :=
  flowValue? (2 * p.rest.length + 2) p

end RToJulia.Yaml
