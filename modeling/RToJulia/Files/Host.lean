import RToJulia.Files.Disk
import RToJulia.Translate

/-!
# Hosts

A host carries out file and console operations in a monad.  `World.host` does so
on a value that holds a disk and the two sides of a console.
-/

namespace RToJulia

open Text

structure Host (m : Type → Type) where
  /-- The content of a file. -/
  read : Bytes → m (Except FileFault Bytes)
  /-- The names in a directory, and whether each is a directory. -/
  list : Bytes → m (Except FileFault (List (Bytes × Bool)))
  /-- Make a directory together with those above it. -/
  makeDirectories : Bytes → m (Except FileFault Unit)
  /-- Write a file. -/
  write : Bytes → Bytes → m (Except FileFault Unit)
  /-- The next line of the input. -/
  line : m (Option Bytes)
  /-- Run a step on every line of the input, writing a text before each attempt to read one. -/
  eachLine : {σ : Type} → Bytes → (σ → Bytes → m σ) → σ → m σ
  /-- Write to the output. -/
  out : Bytes → m Unit
  /-- Write to the messages. -/
  err : Bytes → m Unit
  /-- End everything. -/
  halt : {α : Type} → Halt → m α

/-- A disk and a console: the lines still to be read, and what has been written. -/
structure World where
  disk : Disk := {}
  input : List Bytes := []
  out : Bytes := []
  err : Bytes := []
  deriving DecidableEq, Repr

abbrev Run := StateT World (Except Halt)

namespace World

def onDisk {α : Type} (f : Disk → Except FileFault α × Disk) : Run (Except FileFault α) :=
  modifyGet fun w =>
    let (answer, disk) := f w.disk
    (answer, { w with disk })

def say (s : Bytes) : Run Unit :=
  modify fun w => { w with out := w.out ++ s }

/-- Run a step on every line of a list, writing a text before each and after the last. -/
def overLines {σ : Type} (question : Bytes) (step : σ → Bytes → Run σ) : List Bytes → σ → Run σ
  | [], s => do
      say question
      pure s
  | line :: rest, s => do
      say question
      overLines question step rest (← step s line)

def host : Host Run where
  read p := do return (← get).disk.read p
  list p := do return (← get).disk.list p
  makeDirectories p := onDisk (·.makeDirectories p)
  write p content := onDisk fun d =>
    match d.write p content with
    | .ok d' => (.ok (), d')
    | .error f => (.error f, d)
  line := modifyGet fun w => (w.input.head?, { w with input := w.input.tail })
  eachLine question step s := do
    let lines := (← get).input
    modify fun w => { w with input := [] }
    overLines question step lines s
  out := say
  err s := modify fun w => { w with err := w.err ++ s }
  halt reason := throw reason

end World

end RToJulia
