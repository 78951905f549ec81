import RToJulia.Text.Bytes

/-!
# Packages

The packages that Julia functions come from, and the lines that load them.
-/

namespace RToJulia.Julia

open Text

inductive Package where
  | dataFrames
  | statistics
  deriving DecidableEq, Repr

namespace Package

def name : Package → Bytes
  | dataFrames => "DataFrames"
  | statistics => "Statistics"

def all : List Package :=
  [dataFrames, statistics]

def ofFunction? (function : Bytes) : Option Package :=
  if function = "DataFrame" then some dataFrames
  else if function = "mean" || function = "median" || function = "std" || function = "var" ||
      function = "quantile" then some statistics
  else none

def header (used : List Package) : Bytes :=
  List.intercalate (utf8 "\n") ((all.filter (used.contains ·)).map fun p => "using " ++ p.name)

end Package

end RToJulia.Julia
