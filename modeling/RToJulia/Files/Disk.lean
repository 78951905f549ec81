import RToJulia.Files.Fault
import RToJulia.Files.Path

/-!
# Disks

A disk is a value: files and directories by the components of their place below
the root.  Paths are followed component by component from the root or from the
current directory, and every component but the last has to be a directory.
-/

namespace RToJulia

open Text

inductive Entry where
  | file (content : Bytes)
  | directory
  deriving DecidableEq, Repr

/-- The components of a place below the root. -/
abbrev Location := List Bytes

/-- The files and directories of a disk.  `home` is another name for the current directory
that paths may start with. -/
structure Disk where
  entries : List (Location × Entry) := []
  current : Location := []
  home : Bytes := []
  deriving DecidableEq, Repr

namespace Disk

/-- What stands at a place; the root is a directory. -/
def entry? (d : Disk) (place : Location) : Option Entry :=
  if place = [] then some .directory else d.entries.lookup place

def setEntry (place : Location) (e : Entry) : List (Location × Entry) → List (Location × Entry)
  | [] => [(place, e)]
  | x :: rest => if x.1 = place then (place, e) :: rest else x :: setEntry place e rest

def set (d : Disk) (place : Location) (e : Entry) : Disk :=
  { d with entries := setEntry place e d.entries }

def follow (d : Disk) (place : Location) : List Bytes → Except Reason Location
  | [] => .ok place
  | c :: rest =>
      match d.entry? place with
      | none => .error .notFound
      | some (.file _) => .error .notDirectory
      | some .directory =>
          if c = "." then d.follow place rest
          else if c = ".." then d.follow place.dropLast rest
          else d.follow (place ++ [c]) rest

def start (d : Disk) (p : Bytes) : Location × Bytes :=
  if Path.isRooted p then ([], p)
  else if d.home ≠ [] && (p = d.home || (d.home ++ [Path.slash]).isPrefixOf p) then
    (d.current, p.drop d.home.length)
  else (d.current, p)

/-- The place of a path.  A slash at the end asks for a directory. -/
def locate (d : Disk) (p : Bytes) : Except Reason Location :=
  if p = [] then .error .notFound
  else
    let (origin, rest) := d.start p
    let last : List Bytes := if rest.getLast? = some Path.slash then ["."] else []
    d.follow origin (Path.components rest ++ last)

def status (d : Disk) (p : Bytes) : Except Reason Entry := do
  match d.entry? (← d.locate p) with
  | some e => .ok e
  | none => .error .notFound

def read (d : Disk) (p : Bytes) : Except FileFault Bytes :=
  match d.status p with
  | .ok (.file content) => .ok content
  | .ok .directory => .error ⟨.read, p, .isDirectory⟩
  | .error reason => .error ⟨.open, p, reason⟩

/-- The names directly below a place, and whether each is a directory. -/
def children (d : Disk) (place : Location) : List (Bytes × Bool) :=
  d.entries.filterMap fun (found, e) =>
    match found.getLast? with
    | some name => if found.dropLast = place then some (name, e = .directory) else none
    | none => none

def list (d : Disk) (p : Bytes) : Except FileFault (List (Bytes × Bool)) :=
  match d.locate p with
  | .error reason => .error ⟨.open, p, reason⟩
  | .ok place =>
      match d.entry? place with
      | some .directory => .ok (d.children place)
      | some (.file _) => .error ⟨.open, p, .notDirectory⟩
      | none => .error ⟨.open, p, .notFound⟩

def write (d : Disk) (p content : Bytes) : Except FileFault Disk :=
  match d.locate p with
  | .error reason => .error ⟨.open, p, reason⟩
  | .ok place =>
      match d.entry? place with
      | some .directory => .error ⟨.open, p, .isDirectory⟩
      | _ => .ok (d.set place (.file content))

/-- Make one directory; the one above it has to be there. -/
def makeDirectory (d : Disk) (p : Bytes) : Except Reason Disk :=
  let (origin, rest) := d.start p
  if p = [] then .error .notFound
  else
    match (Path.components rest).getLast? with
    | none => .error .taken
    | some name => do
        let above ← d.follow origin ((Path.components rest).dropLast ++ [utf8 "."])
        if name = "." || name = ".." || (d.entry? (above ++ [name])).isSome then .error .taken
        else .ok (d.set (above ++ [name]) .directory)

/-- Make the directories of a chain of paths, the innermost first; a directory that is there ends
the chain.  Those made before a failure stay. -/
def makeChain : List Bytes → Disk → Except FileFault Unit × Disk
  | [], d => (.ok (), d)
  | p :: above, d =>
      match d.status p with
      | .ok .directory => (.ok (), d)
      | .ok (.file _) => (.error ⟨.makeDirectory, p, .notDirectory⟩, d)
      | .error _ =>
          match makeChain above d with
          | (.error f, d') => (.error f, d')
          | (.ok (), d') =>
              match d'.makeDirectory p with
              | .ok d'' => (.ok (), d'')
              | .error reason =>
                  if d'.status p matches .ok .directory then (.ok (), d')
                  else (.error ⟨.makeDirectory, p, reason⟩, d')

def makeDirectories (d : Disk) (p : Bytes) : Except FileFault Unit × Disk :=
  makeChain (p :: (Path.ancestors p).reverse) d

/-- The files below the current directory by their relative paths. -/
def files (d : Disk) : List (Bytes × Bytes) :=
  d.entries.filterMap fun
    | (place, .file content) =>
        if d.current.isPrefixOf place then
          some (List.intercalate [Path.slash] (place.drop d.current.length), content)
        else none
    | _ => none

end Disk

end RToJulia
