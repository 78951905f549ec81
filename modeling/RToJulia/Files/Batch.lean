import RToJulia.Files.Host

/-!
# Working on files

One source is read, its Julia text goes to the file of the same name under
another directory.  A batch does so for every R file of a directory, and a source
that fails does not stop the others.
-/

namespace RToJulia

open Text

inductive SourceFault where
  | file (f : FileFault)
  | translate (path : Bytes) (f : TranslateFault)

def SourceFault.message : SourceFault → Bytes
  | file f => f.message
  | translate path f => path ++ ": " ++ f.message

inductive ListFault where
  | file (directory : Bytes) (f : FileFault)
  | noSources (directory : Bytes)
  deriving DecidableEq, Repr

def ListFault.message : ListFault → Bytes
  | file directory f => "list " ++ directory ++ ": " ++ f.message
  | noSources directory => "no R files in " ++ directory

def isSourceName (name : Bytes) : Bool :=
  (Path.extension name).map lowerByte = utf8 ".r"

def sourcePaths (directory : Bytes) (names : List (Bytes × Bool)) : List Bytes :=
  ((names.filter fun n => !n.2 && isSourceName n.1).map fun n =>
    Path.join [directory, n.1]).mergeSort inOrder

def SourceFault.lines (fs : List SourceFault) : Bytes :=
  List.intercalate (utf8 "\n") (fs.map SourceFault.message)

namespace Host

variable {m : Type → Type} [Monad m]

/-- The R files directly in a directory, in order. -/
def findSources (h : Host m) (directory : Bytes) : m (Except FileFault (List Bytes)) := do
  match ← h.list directory with
  | .ok names => return .ok (sourcePaths directory names)
  | .error f => return .error f

def listSources (h : Host m) (directory : Bytes) : m (Except ListFault (List Bytes)) := do
  match ← h.findSources directory with
  | .ok [] => return .error (.noSources directory)
  | .ok paths => return .ok paths
  | .error f => return .error (.file directory f)

/-- The Julia text of a source; warnings go to the messages. -/
def translateText (h : Host m) (o : Options) (source : Bytes) :
    m (Except TranslateFault Bytes) := do
  if warnings source ≠ [] then h.err (warnings source)
  match translate o source with
  | .ok answer => return answer
  | .error reason => h.halt reason

def translateFile (h : Host m) (o : Options) (path out : Bytes) :
    m (Except SourceFault Bytes) := do
  match ← h.read path with
  | .error f => return .error (.file f)
  | .ok source =>
      match ← h.translateText o source with
      | .error f => return .error (.translate path f)
      | .ok text =>
          match ← h.makeDirectories out with
          | .error f => return .error (.file f)
          | .ok () =>
              let target := outputPath out path
              match ← h.write target (text ++ "\n") with
              | .error f => return .error (.file f)
              | .ok () => return .ok target

/-- Write the Julia files of sources, and give the paths written and the faults. -/
def translateEach (h : Host m) (o : Options) (out : Bytes) :
    List Bytes → m (List Bytes × List SourceFault)
  | [] => return ([], [])
  | path :: rest => do
      let answer ← h.translateFile o path out
      let (written, faults) ← h.translateEach o out rest
      match answer with
      | .ok target => return (target :: written, faults)
      | .error f => return (written, f :: faults)

def translateAll (h : Host m) (o : Options) (directory out : Bytes) :
    m (Except ListFault (List Bytes × List SourceFault)) := do
  match ← h.listSources directory with
  | .error f => return .error f
  | .ok paths => return .ok (← h.translateEach o out paths)

end Host

end RToJulia
