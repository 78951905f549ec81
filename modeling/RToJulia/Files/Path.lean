import RToJulia.Text.Bytes

/-!
# Paths

Paths are byte strings whose components are divided by slashes.  The operations
here look at the text alone and at no directory.
-/

namespace RToJulia

open Text

namespace Path

def slash : UInt8 := 0x2f

/-- The parts of a byte string between the bytes equal to `b`; there is at least one. -/
def splitAt (b : UInt8) : Bytes → List Bytes
  | [] => [[]]
  | c :: rest =>
      match splitAt b rest with
      | part :: parts => if c = b then [] :: part :: parts else (c :: part) :: parts
      | [] => [[c]]

def components (p : Bytes) : List Bytes :=
  (splitAt slash p).filter (· ≠ [])

def isRooted (p : Bytes) : Bool :=
  p.head? == some slash

/-- Enter one component from a list of components, the last first. -/
def enter (rooted : Bool) (above : List Bytes) (c : Bytes) : List Bytes :=
  if c = "." then above
  else if c = ".." then
    match above with
    | [] => if rooted then [] else [c]
    | last :: rest => if last = ".." then c :: above else rest
  else c :: above

/-- The shortest path with the same components once `.` and `..` are carried out. -/
def clean (p : Bytes) : Bytes :=
  let rooted := isRooted p
  let parts := ((components p).foldl (enter rooted) []).reverse
  let body := List.intercalate [slash] parts
  if rooted then slash :: body else if body = [] then "." else body

/-- Join the parts that are not empty, and clean the result. -/
def join (parts : List Bytes) : Bytes :=
  match parts.filter (· ≠ []) with
  | [] => []
  | kept => clean (List.intercalate [slash] kept)

def base (p : Bytes) : Bytes :=
  match (components p).getLast? with
  | some c => c
  | none => if p = [] then "." else [slash]

def directory (p : Bytes) : Bytes :=
  clean ((p.reverse.dropWhile (· != slash)).reverse)

/-- The part of a component from its last dot on; empty without a dot. -/
def extension (name : Bytes) : Bytes :=
  if name.contains 0x2e then
    0x2e :: (name.reverse.takeWhile (· != 0x2e)).reverse
  else []

/-- The ends of the directories above a path, the outermost first, each with its slashes. -/
def ancestorsFrom (above : Bytes) : Bytes → List Bytes
  | [] => []
  | b :: rest =>
      let here := above ++ [b]
      if b = slash && (rest.head?.map (· != slash)).getD false then here :: ancestorsFrom here rest
      else ancestorsFrom here rest

def ancestors (p : Bytes) : List Bytes :=
  ancestorsFrom [] p

end Path

/-- Where the Julia text of a source goes: the name of the source with another extension,
under `out`. -/
def outputPath (out source : Bytes) : Bytes :=
  let name := Path.base source
  Path.join [out, dropTail (Path.extension name) name ++ ".jl"]

end RToJulia
