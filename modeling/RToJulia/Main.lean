import RToJulia.Command.Run

/-!
# The command line

The host of commands on the real file system and console.
-/

namespace RToJulia.Command

open Text

def systemText (s : Bytes) : String :=
  String.ofList (chars s)

def reasonOf : IO.Error → Reason
  | .noFileOrDirectory .. => .notFound
  | .inappropriateType .. => .notDirectory
  | .alreadyExists .. => .taken
  | e => .other (utf8 (toString e))

def attempt {α : Type} (operation : Operation) (path : Bytes) (action : IO α) :
    IO (Except FileFault α) := do
  try
    return .ok (← action)
  catch e => return .error ⟨operation, path, reasonOf e⟩

def makeSystemChain : List Bytes → IO (Except FileFault Unit)
  | [] => return .ok ()
  | p :: above => do
      let place := System.mkFilePath [systemText p]
      if ← place.isDir then return .ok ()
      if ← place.pathExists then return .error ⟨.makeDirectory, p, .notDirectory⟩
      match ← makeSystemChain above with
      | .error f => return .error f
      | .ok () =>
          let answer ← attempt .makeDirectory p (IO.FS.createDir (systemText p))
          if ← place.isDir then return .ok () else return answer

def emit (stream : IO.FS.Stream) (s : Bytes) : IO Unit := do
  stream.write ⟨s.toArray⟩
  stream.flush

/-- Read until the held bytes hold a whole line or a full buffer, or the input ends. -/
partial def fill (stream : IO.FS.Stream) (held : Bytes) : IO Bytes := do
  if held.contains 0x0a || bufferSize ≤ held.length then return held
  let more ← stream.read 4096
  if more.isEmpty then return held
  fill stream (held ++ more.data.toList)

/-- The next line of a stream, with `held` keeping what was read past it. -/
def nextLine (stream : IO.FS.Stream) (held : IO.Ref Bytes) : IO (Option Bytes) := do
  let s ← fill stream (← held.get)
  match takeLine? s with
  | none => return none
  | some (line, rest) =>
      held.set rest
      return some line.text

partial def overInput {σ : Type} (ask : IO Unit) (next : IO (Option Bytes))
    (step : σ → Bytes → IO σ) (s : σ) : IO σ := do
  ask
  match ← next with
  | none => return s
  | some line => overInput ask next step (← step s line)

def systemHost (input output messages : IO.FS.Stream) (held : IO.Ref Bytes) : Host IO where
  read p := do
    if ← (System.mkFilePath [systemText p]).isDir then return .error ⟨.read, p, .isDirectory⟩
    attempt .open p do return (← IO.FS.readBinFile (systemText p)).data.toList
  list p := attempt .open p do
    let entries ← (System.mkFilePath [systemText p]).readDir
    entries.toList.mapM fun e => return (utf8 e.fileName, ← e.path.isDir)
  makeDirectories p := makeSystemChain (p :: (Path.ancestors p).reverse)
  write p content := attempt .open p (IO.FS.writeBinFile (systemText p) ⟨content.toArray⟩)
  line := nextLine input held
  eachLine question step s := overInput (emit output question) (nextLine input held) step s
  out := emit output
  err := emit messages
  halt _ := throw (IO.userError "cannot write this program")

/-- The directory that a variable names, or one below the user's home. -/
def homeOf (name below : String) : IO Bytes := do
  match ← IO.getEnv name with
  | some path => return utf8 path
  | none => return Path.join [utf8 ((← IO.getEnv "HOME").getD ""), utf8 below]

end RToJulia.Command

open RToJulia in
def main (arguments : List String) : IO UInt32 := do
  let held ← IO.mkRef ([] : Bytes)
  let host := Command.systemHost (← IO.getStdin) (← IO.getStdout) (← IO.getStderr) held
  let homes : Command.Homes :=
    ⟨← Command.homeOf "XDG_CONFIG_HOME" ".config", ← Command.homeOf "XDG_DATA_HOME" ".local/share"⟩
  let code ← Command.run host homes (arguments.map Text.utf8)
  return UInt32.ofNat code
