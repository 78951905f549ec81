import RToJulia.Command.Flags
import RToJulia.Command.History
import RToJulia.Files.Batch
import RToJulia.Settings
import RToJulia.Text.Utf8

/-!
# Running a command

The settings file and the flags give the options.  Then one file is worked on,
or a file of a directory is asked for, or lines are answered as they are entered.
-/

namespace RToJulia.Command

open Text

structure Homes where
  settings : Bytes
  data : Bytes
  deriving DecidableEq, Repr

def Homes.settingsPath (homes : Homes) : Bytes :=
  Path.join [homes.settings, utf8 "rjulia", utf8 "config.yaml"]

def Homes.historyDirectory (homes : Homes) : Bytes :=
  Path.join [homes.data, utf8 "rjulia"]

def Homes.historyPath (homes : Homes) : Bytes :=
  Path.join [homes.data, utf8 "rjulia", utf8 ".rjulia_history"]

inductive Fault where
  | file (f : FileFault)
  | settings (path : Bytes) (f : Settings.Fault)
  | override (f : Options.OverrideFault)
  | list (f : ListFault)
  | sources (fs : List SourceFault)
  /-- The input ended before a question was answered. -/
  | endOfInput
  | choice (answer : Bytes)
  /-- The web interface cannot be offered here. -/
  | noServer (address : Bytes)

def Fault.message : Fault → Bytes
  | file f => f.message
  | settings path f => f.message path
  | override f => f.message
  | list f => f.message
  | sources fs => SourceFault.lines fs
  | endOfInput => "EOF"
  | choice answer => "invalid choice: " ++ quoted answer
  | noServer address => "cannot listen on " ++ address

variable {m : Type → Type} [Monad m]

def sayLine (h : Host m) (s : Bytes) : m Unit :=
  h.out (s ++ "\n")

/-- The options of the settings file at a path; a file that is not there says nothing. -/
def loadSettings (h : Host m) (path : Bytes) : m (Except Fault Options) := do
  match ← h.read path with
  | .error f => return if f.reason = .notFound then .ok {} else .error (.file f)
  | .ok s =>
      match Settings.ofText s with
      | .ok o => return .ok o
      | .error f => return .error (.settings path f)

def runFile (h : Host m) (o : Options) (path out : Bytes) : m (Except Fault Unit) := do
  match ← h.translateFile o path out with
  | .ok target =>
      sayLine h target
      return .ok ()
  | .error f => return .error (.sources [f])

def runAll (h : Host m) (o : Options) (directory out : Bytes) : m (Except Fault Unit) := do
  match ← h.translateAll o directory out with
  | .error f => return .error (.list f)
  | .ok (written, faults) =>
      written.forM (sayLine h)
      return if faults.isEmpty then .ok () else .error (.sources faults)

def offer (number : Nat) : List Bytes → Bytes
  | [] => []
  | path :: rest => decimal number ++ ": " ++ Path.base path ++ "\n" ++ offer (number + 1) rest

def question (count : Nat) : Bytes :=
  "file to translate [1-" ++ decimal count ++ ", a for all]: "

def chosen? (paths : List Bytes) (answer : Bytes) : Option Bytes :=
  match readInteger answer with
  | .ok n => if 1 ≤ n then paths[(n - 1).toNat]? else none
  | .error _ => none

/-- Offer the files of a directory and work on the chosen one, or on all. -/
def runBatch (h : Host m) (o : Options) (directory out : Bytes) : m (Except Fault Unit) := do
  match ← h.listSources directory with
  | .error f => return .error (.list f)
  | .ok paths =>
      h.out (offer 1 paths ++ question paths.length)
      match ← h.line with
      | none => return .error .endOfInput
      | some line =>
          let answer := trim line
          if answer = "a" then runAll h o directory out
          else
            match chosen? paths answer with
            | some path => runFile h o path out
            | none => return .error (.choice answer)

/-- The history of a user; what is wrong with the file is told. -/
def loadHistory (h : Host m) (path : Bytes) : m History := do
  match ← h.read path with
  | .ok s =>
      let (history, fault) := History.ofText s
      match fault with
      | some f => h.err (f.message ++ "\n")
      | none => pure ()
      return history
  | .error f =>
      if f.operation = .read then h.err (f.message ++ "\n")
      return []

/-- Keep the history of a user.  A file that cannot be written is passed over. -/
def saveHistory (h : Host m) (homes : Homes) (history : History) : m Unit := do
  match ← h.makeDirectories homes.historyDirectory with
  | .ok () => pure ()
  | .error f => h.err (f.message ++ "\n")
  discard (h.write homes.historyPath history.toText)

def answerLine (h : Host m) (o : Options) (history : History) (line : Bytes) : m History := do
  if trim line = [] then return history
  else
    match ← h.translateText o line with
    | .ok text => sayLine h text
    | .error f => h.err ("Error: " ++ f.message ++ "\n")
    return history.enter line

def runPrompt (h : Host m) (homes : Homes) (o : Options) : m (Except Fault Unit) := do
  let history ← loadHistory h homes.historyPath
  let history ← h.eachLine "> " (answerLine h o) history
  saveHistory h homes history
  return .ok ()

def runFlags (h : Host m) (homes : Homes) (f : Flags) : m (Except Fault Unit) := do
  let path := if f.settings = [] then homes.settingsPath else f.settings
  match ← loadSettings h path with
  | .error e => return .error e
  | .ok base =>
      match base.override f.overrides with
      | .error e => return .error (.override e)
      | .ok o =>
          if f.address ≠ [] then return .error (.noServer f.address)
          else if f.input ≠ [] then runFile h o f.input f.output
          else if f.batch then runBatch h o f.directory f.output
          else runPrompt h homes o

def run (h : Host m) (homes : Homes) (arguments : List Bytes) : m Nat := do
  match Flags.ofArguments arguments with
  | .error f =>
      h.err f.message
      return if f = .help then 0 else 2
  | .ok flags =>
      match ← runFlags h homes flags with
      | .ok () => return 0
      | .error f =>
          h.err (f.message ++ "\n")
          return 1

end RToJulia.Command
