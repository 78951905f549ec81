import RToJulia.Proofs.Julia.Replay
import RToJulia.Proofs.Julia.Uses

/-! # Nodes written with a node

The nodes written with a node are the node itself and those written with its parts.
Each of them leaves at most one note of its own: the record type that its text names,
or the package of the function that its text invokes.
-/

namespace RToJulia.Julia

open Text
open Node (content isSilent)

/-! ## Functions invoked by calls -/

/-- Whether a call of `matrix` stands as it is: its value is silent, or both its sizes are. -/
def matrixStands (o : Options) (args : List Node) : Bool :=
  ((matrixData? args).all isSilent ||
    ((Node.lookup? args "nrow").all isSilent && (Node.lookup? args "ncol").all isSilent)) &&
    o.matrixFallback ≠ "reshape"

/-- The function that the text of a call invokes; a vector invokes none. -/
def invoked? (o : Options) (f : Bytes) (args : List Node) : Option Bytes :=
  if f = "c" then none
  else if f = "list" then some (utf8 "Dict")
  else if f = "matrix" then some (if matrixStands o args then utf8 "matrix" else utf8 "reshape")
  else if f = "print" then some (utf8 "println")
  else if f = "exists" then
    some (if (Node.positional args).isEmpty then utf8 "exists" else utf8 "isdefined")
  else some ((renamed? f).getD (if (utf8 "data.frame").isPrefixOf f then utf8 "DataFrame" else f))

def functionNote? (f : Bytes) : Option Note :=
  (Package.ofFunction? f).map .package

def callNote? (o : Options) (f : Bytes) (args : List Node) : Option Note :=
  (invoked? o f args).bind functionNote?

/-- What the text of a call begins with: the function it invokes, or the bracket of a vector. -/
def callLead (o : Options) (f : Bytes) (args : List Node) : Bytes :=
  match invoked? o f args with
  | some function => function ++ "("
  | none => "["

theorem callLead_ne_nil (o : Options) (f : Bytes) (args : List Node) : callLead o f args ≠ [] := by
  unfold callLead
  split
  · exact List.append_ne_nil_of_right_ne_nil _ (by decide)
  · decide

/-! ## Nodes and their notes -/

/-- `m` is written with `n`: it is `n` itself, or it is written inside `n` at some depth. -/
inductive Written (o : Options) : Node → Node → Prop
  | root (n : Node) : Written o n n
  | part {n p m : Node} (mem : p ∈ parts o n) (h : Written o p m) : Written o n m

def ownNote? (o : Options) : Node → Option Note
  | .call f args => callNote? o f args
  | n => (ownRecord? n).map .record

def LeftBy (o : Options) (n : Node) (k : Note) : Prop :=
  ∃ m, Written o n m ∧ ownNote? o m = some k

theorem leftBy_iff {o : Options} {n : Node} {k : Note} :
    LeftBy o n k ↔ ownNote? o n = some k ∨ ∃ p ∈ parts o n, LeftBy o p k := by
  constructor
  · rintro ⟨m, hm, hk⟩
    cases hm with
    | root => exact .inl hk
    | part mem h => exact .inr ⟨_, mem, m, h, hk⟩
  · rintro (hk | ⟨p, mem, m, h, hk⟩)
    · exact ⟨n, .root n, hk⟩
    · exact ⟨m, .part mem h, hk⟩

theorem ownNote?_record {o : Options} {n : Node} {type : Bytes} :
    ownNote? o n = some (.record type) ↔ ownRecord? n = some type := by
  cases n with
  | call f args =>
      constructor
      · intro h
        obtain ⟨g, -, hnote⟩ := Option.bind_eq_some_iff.mp h
        obtain ⟨q, -, heq⟩ := Option.map_eq_some_iff.mp hnote
        cases heq
      · intro h
        cases h
  | _ => simp [ownNote?]

/-- The record types that a node uses are those among its notes. -/
theorem uses_iff_leftBy {o : Options} {n : Node} {type : Bytes} :
    Uses o n type ↔ LeftBy o n (.record type) := by
  constructor
  · intro h
    induction h with
    | own h => exact leftBy_iff.mpr (.inl (ownNote?_record.mpr h))
    | part mem _ ih => exact leftBy_iff.mpr (.inr ⟨_, mem, ih⟩)
  · rintro ⟨m, hm, hk⟩
    induction hm with
    | root n => exact .own (ownNote?_record.mp hk)
    | part mem _ ih => exact .part mem (ih hk)

/-- A package among the notes of a node is that of a function which a call written with it
invokes. -/
theorem leftBy_package {o : Options} {n : Node} {p : Package} :
    LeftBy o n (.package p) ↔ ∃ f args g, Written o n (.call f args) ∧
      invoked? o f args = some g ∧ Package.ofFunction? g = some p := by
  constructor
  · rintro ⟨m, hm, hk⟩
    cases m with
    | call f args =>
        obtain ⟨g, hg, hnote⟩ := Option.bind_eq_some_iff.mp hk
        obtain ⟨q, hq, heq⟩ := Option.map_eq_some_iff.mp hnote
        cases heq
        exact ⟨f, args, g, hm, hg, hq⟩
    | _ => simp [ownNote?] at hk
  · rintro ⟨f, args, g, hm, hg, hp⟩
    exact ⟨.call f args, hm, by simp [ownNote?, callNote?, hg, functionNote?, hp]⟩

end RToJulia.Julia
