import RToJulia.Proofs.Julia.Writer

/-! # The steps of a tree's writer

The writer of a tree is put together from a few steps: it notes a record type, a
function or a node without a Julia form, it looks whether a node was refused, and
it halts. `Built` holds of the writers put together from these steps alone, so that
a property of writers is proved by one induction on how they are built.
-/

namespace RToJulia.Julia

open Text Writer Argument

inductive Built : {α : Type} → Writer α → Prop
  | pure {α : Type} (a : α) : Built (Pure.pure a)
  | bind {α β : Type} {m : Writer α} {f : α → Writer β} (first : Built m)
      (next : ∀ a, Built (f a)) : Built (m >>= f)
  | halt {α : Type} (reason : Halt) : Built (halt reason : Writer α)
  | useRecord (type : Bytes) : Built (useRecord type)
  | useFunction (function : Bytes) : Built (useFunction function)
  | refuse (n : Node) : Built (refuse n)
  | unlessRefused {m : Writer Bytes} (body : Built m) : Built (unlessRefused m)

namespace Built

variable {α : Type}

theorem margin (o : Options) (level : Nat) : Built (margin o level) := by
  unfold Writer.margin
  dsimp only
  split
  · exact halt _
  · exact pure _

theorem lift (x : Except Halt α) : Built (x : Writer α) := by
  cases x with
  | error reason => exact halt reason
  | ok a => exact pure a

theorem mapM {ι : Type} {f : ι → Writer α} {items : List ι} (h : ∀ i ∈ items, Built (f i)) :
    Built (items.mapM f) := by
  induction items with
  | nil =>
      rw [List.mapM_nil]
      exact pure []
  | cons i items ih =>
      rw [List.mapM_cons]
      have hhead := h i (by simp)
      have htail := ih fun j hj => h j (by simp [hj])
      exact hhead.bind fun a => htail.bind fun as => pure (a :: as)

end Built

/-! ## Calls -/

section Calls

variable {args : List Argument} (h : ∀ a ∈ args, Built a.write)

include h

theorem writeAll_built : Built (writeAll args) :=
  .mapM h

theorem writePositional_built : Built (writeAll (positional args)) :=
  .mapM fun a ha => h a (List.mem_filter.mp ha).1

theorem writeNamed_built (key : Bytes → Bytes) : Built (writeNamed args key) := by
  apply Built.mapM
  intro (x, a) hx
  obtain ⟨b, hb, hbx⟩ := List.mem_filterMap.mp hx
  obtain ⟨y, -, hy⟩ := Option.map_eq_some_iff.mp hbx
  cases hy
  exact (h a hb).bind fun text => .pure _

theorem writeOptional_built {a? : Option Argument} (ha : ∀ a ∈ a?, a ∈ args) :
    Built (writeOptional a?) := by
  cases a? with
  | none => exact .pure []
  | some a => exact h a (ha a rfl)

theorem plainCall_built (f : Bytes) : Built (plainCall f args) := by
  unfold plainCall
  refine .bind (.useFunction f) fun _ => ?_
  refine .bind (writePositional_built h) fun pos => ?_
  refine .bind (writeNamed_built h _) fun kws => ?_
  split
  · exact .pure _
  split
  · exact .pure _
  · exact .pure _

theorem mappingCall_built (o : Options) : Built (mappingCall o args) := by
  unfold mappingCall
  refine .bind (writeNamed_built h _) fun keyed => ?_
  split
  · exact .bind (writePositional_built h) fun values => .pure _
  · exact .pure _

theorem matrixCall_built (o : Options) : Built (matrixCall o args) := by
  have hdata : ∀ a ∈ (positional args).head? <|> lookup? args "data", a ∈ args := by
    intro a ha
    cases hpos : positional args with
    | nil =>
        have hlookup : lookup? args "data" = some a := by simpa [hpos] using ha
        exact List.mem_of_find?_eq_some hlookup
    | cons b bs =>
        obtain rfl : b = a := by simpa [hpos] using ha
        have hb : b ∈ positional args := hpos ▸ List.mem_cons_self
        exact (List.mem_filter.mp hb).1
  unfold matrixCall
  refine .bind (writeOptional_built h hdata) fun data => ?_
  refine .bind (writeOptional_built h fun _ => List.mem_of_find?_eq_some) fun rows => ?_
  refine .bind (writeOptional_built h fun _ => List.mem_of_find?_eq_some) fun cols => ?_
  dsimp only
  repeat' split
  all_goals first
    | exact .pure _
    | exact plainCall_built h "matrix"

theorem existsCall_built : Built (existsCall args) := by
  unfold existsCall
  split
  · exact plainCall_built h "exists"
  · rename_i a as hpos
    have ha : a ∈ positional args := hpos ▸ List.mem_cons_self
    have hsymbol : Built (do return "isdefined(Main, Symbol(" ++ (← a.write) ++ "))" : Writer Bytes) :=
      .bind (h a (List.mem_filter.mp ha).1) fun text => .pure _
    split
    · split
      · exact .pure _
      · exact hsymbol
    · exact hsymbol

theorem tableCall_built : Built (tableCall args) :=
  .bind (writeNamed_built h _) fun _ => .bind (writePositional_built h) fun _ =>
    .bind (.useFunction _) fun _ => .pure _

theorem writeCall_built (o : Options) (f : Bytes) : Built (writeCall o f args) := by
  unfold writeCall
  split
  · exact .bind (writeAll_built h) fun _ => .pure _
  split
  · exact mappingCall_built h o
  split
  · exact matrixCall_built h o
  split
  · exact .bind (writePositional_built h) fun _ => .pure _
  split
  · exact existsCall_built h
  split
  · exact plainCall_built h _
  split
  · exact tableCall_built h
  · exact plainCall_built h f

end Calls

/-! ## Trees -/

section Frames

variable {o : Options} {level : Nat} {cond body : Writer Bytes}

theorem writeMethod_built (op cls : Bytes) (params : List Bytes) (hb : Built body) :
    Built (writeMethod o level op cls params body) :=
  .bind (.useRecord _) fun _ => .bind (.margin o _) fun _ => .bind hb fun _ =>
    .bind (.margin o _) fun _ => .pure _

theorem writeFunction_built (x : Bytes) (params : List Bytes) (hb : Built body) :
    Built (writeFunction o level x params body) :=
  .bind hb fun _ => .bind (.margin o _) fun _ => .pure _

theorem writeWhile_built (hc : Built cond) (hb : Built body) :
    Built (writeWhile o level cond body) :=
  .bind hc fun _ => .bind hb fun _ => .bind (.margin o _) fun _ => .pure _

theorem writeLet_built (names : List Bytes) (hb : Built body) :
    Built (writeLet o level names body) :=
  .bind (.margin o _) fun _ => .bind hb fun _ => .bind (.margin o _) fun _ => .pure _

theorem writeAssign_built (x : Bytes) (value : Node) {plain : Writer Bytes} {args : List Argument}
    (hplain : Built plain) (hargs : ∀ a ∈ args, Built a.write) :
    Built (writeAssign x value plain args) := by
  unfold writeAssign
  dsimp only
  split
  · refine .bind (.useRecord _) fun _ => ?_
    split
    · rename_i a as hpos
      have ha : a ∈ positional args := hpos ▸ List.mem_cons_self
      exact .bind (hargs a (List.mem_filter.mp ha).1) fun _ => .pure _
    · exact .bind (.pure _) fun _ => .pure _
  · exact .bind hplain fun _ => .pure _

theorem writeRange_built (start : Node) {first last : Writer Bytes} (hf : Built first)
    (hl : Built last) : Built (writeRange start first last) := by
  unfold writeRange
  split
  · exact hl
  · exact .bind hf fun _ => .bind hl fun _ => .pure _

theorem writeReturn_built (value : Node) (hb : Built body) : Built (writeReturn value body) := by
  unfold writeReturn
  split
  · exact .pure _
  · exact .bind hb fun _ => .pure _

theorem bodyLine_built (text : Bytes) : Built (bodyLine o level text) := by
  unfold bodyLine
  split
  · exact .pure _
  · exact .bind (.margin o level) fun _ => .pure _

theorem argument_built {n : Node} {whole inner : Writer Bytes} (hw : Built whole)
    (hi : Built inner) : Built (argument n whole inner).write := by
  unfold argument
  split
  · exact hi
  · exact hw

end Frames

section Write

variable (o : Options)

mutual

theorem write_built : ∀ (n : Node) (level : Nat), Built (write o n level)
  | .gap, level => by
      rw [write]
      exact .pure _
  | .block ss, level => by
      rw [write]
      exact .unlessRefused (.bind (writeStatements_built ss (level + 1)) fun _ => .pure _)
  | .assign x value, level => by
      rw [write]
      exact .unlessRefused (writeAssign_built x value (write_built value level)
        (callArguments_built value level))
  | .assignIndex target i value, level => by
      rw [write]
      exact .unlessRefused (.bind (write_built target level) fun _ =>
        .bind (write_built i level) fun _ => .bind (write_built value level) fun _ => .pure _)
  | .exprStmt e, level => by
      rw [write]
      exact .unlessRefused (write_built e level)
  | .ifElse cond yes no, level => by
      rw [write]
      exact .unlessRefused (.bind (write_built cond level) fun _ =>
        .bind (writeBody_built yes level) fun _ => .bind (writeElse_built no level) fun _ =>
          .bind (.margin o level) fun _ => .pure _)
  | .whileLoop cond body, level => by
      have hloop : ∀ level, Built (writeWhile o level (write o cond level) (writeBody o body level)) :=
        fun level => writeWhile_built (write_built cond level) (writeBody_built body level)
      rw [write]
      refine .unlessRefused (.bind (.lift _) fun names => ?_)
      split
      · exact hloop level
      · exact writeLet_built names (hloop (level + 1))
  | .forLoop x start stop body, level => by
      rw [write]
      exact .unlessRefused (.bind (writeRange_built start (write_built start level)
        (write_built stop level)) fun _ => .bind (writeBody_built body level) fun _ =>
          .bind (.margin o level) fun _ => .pure _)
  | .function x params body, level => by
      have hbody := writeBody_built body level
      rw [write]
      refine .unlessRefused ?_
      split
      · exact writeMethod_built _ _ params hbody
      · exact writeFunction_built _ params hbody
  | .operator op cls params body, level => by
      have hbody := writeBody_built body level
      rw [write]
      refine .unlessRefused ?_
      split
      · exact writeMethod_built _ _ params hbody
      · exact writeFunction_built _ params hbody
  | .ret value, level => by
      rw [write]
      exact .unlessRefused (writeReturn_built value (write_built value level))
  | .call f args, level => by
      rw [write]
      exact .unlessRefused (writeCall_built (arguments_built args level) o f)
  | .binary op left right, level => by
      rw [write]
      exact .unlessRefused (.bind (write_built left level) fun _ =>
        .bind (write_built right level) fun _ => .pure _)
  | .unary op operand, level => by
      rw [write]
      exact .unlessRefused (.bind (write_built operand level) fun _ => .pure _)
  | .var _, level | .int _, level | .float _, level | .string _, level | .bool _, level => by
      rw [write]
      exact .unlessRefused (.pure _)
  | .index target i, level => by
      rw [write]
      exact .unlessRefused (.bind (write_built target level) fun _ =>
        .bind (write_built i level) fun _ => .pure _)
  | .field target x, level => by
      rw [write]
      exact .unlessRefused (.bind (write_built target level) fun _ => .pure _)
  | .predicate test e, level => by
      rw [write]
      exact .unlessRefused (.bind (write_built e level) fun _ => .pure _)
  | .named x value, level => by
      rw [write]
      exact .unlessRefused (.refuse _)
  | .program ss, level => by
      rw [write]
      exact .unlessRefused (.refuse _)

theorem namedValue_built : ∀ (n : Node) (level : Nat), Built (writeNamedValue o n level)
  | .named _ value, level => by
      rw [writeNamedValue]
      exact write_built value level
  | .gap, _ | .program _, _ | .block _, _ | .assign .., _ | .assignIndex .., _ | .exprStmt _, _
  | .ifElse .., _ | .whileLoop .., _ | .forLoop .., _ | .function .., _ | .operator .., _
  | .ret _, _ | .call .., _ | .binary .., _ | .unary .., _ | .var _, _ | .int _, _ | .float _, _
  | .string _, _ | .bool _, _ | .index .., _ | .field .., _ | .predicate .., _ => by
      rw [writeNamedValue]
      · exact .pure _
      · exact nofun

theorem arguments_built : ∀ (args : List Node) (level : Nat), ∀ a ∈ arguments o args level,
    Built a.write
  | [], _, _, h => by simp [arguments] at h
  | n :: args, level, a, h => by
      have hhead := argument_built (n := n) (write_built n level) (namedValue_built n level)
      have htail := arguments_built args level
      rw [arguments] at h
      rcases List.mem_cons.mp h with rfl | h
      · exact hhead
      · exact htail a h

theorem callArguments_built : ∀ (value : Node) (level : Nat), ∀ a ∈ callArguments o value level,
    Built a.write
  | .call _ args, level, a, h => by
      rw [callArguments] at h
      exact arguments_built args level a h
  | .gap, _, _, h | .program _, _, _, h | .block _, _, _, h | .assign .., _, _, h
  | .assignIndex .., _, _, h | .exprStmt _, _, _, h | .ifElse .., _, _, h | .whileLoop .., _, _, h
  | .forLoop .., _, _, h | .function .., _, _, h | .operator .., _, _, h | .ret _, _, _, h
  | .named .., _, _, h | .binary .., _, _, h | .unary .., _, _, h | .var _, _, _, h
  | .int _, _, _, h | .float _, _, _, h | .string _, _, _, h | .bool _, _, _, h
  | .index .., _, _, h | .field .., _, _, h | .predicate .., _, _, h => by
      simp [callArguments] at h

theorem writeStatements_built : ∀ (ss : List Node) (level : Nat), Built (writeStatements o ss level)
  | [], level => by
      rw [writeStatements]
      exact .pure _
  | s :: ss, level => by
      rw [writeStatements]
      exact .bind (write_built s level) fun text => .bind (bodyLine_built text) fun _ =>
        .bind (writeStatements_built ss level) fun _ => .pure _

theorem writeBody_built : ∀ (body : Option (List Node)) (level : Nat), Built (writeBody o body level)
  | none, _ => by
      rw [writeBody]
      exact .halt _
  | some ss, level => by
      rw [writeBody]
      exact .bind (writeStatements_built ss (level + 1)) fun _ => .pure _

theorem writeElseIf_built : ∀ (n : Node) (level : Nat), ∀ m ∈ writeElseIf o n level, Built m
  | .ifElse cond yes no, level, m, hm => by
      rw [writeElseIf] at hm
      cases hm
      exact .bind (.margin o level) fun _ => .bind (write_built cond level) fun _ =>
        .bind (writeBody_built yes level) fun _ => .bind (writeElse_built no level) fun _ => .pure _
  | .gap, _, _, h | .program _, _, _, h | .block _, _, _, h | .assign .., _, _, h
  | .assignIndex .., _, _, h | .exprStmt _, _, _, h | .whileLoop .., _, _, h | .forLoop .., _, _, h
  | .function .., _, _, h | .operator .., _, _, h | .ret _, _, _, h | .call .., _, _, h
  | .named .., _, _, h | .binary .., _, _, h | .unary .., _, _, h | .var _, _, _, h
  | .int _, _, _, h | .float _, _, _, h | .string _, _, _, h | .bool _, _, _, h
  | .index .., _, _, h | .field .., _, _, h | .predicate .., _, _, h => by
      simp [writeElseIf] at h

theorem writeChain_built : ∀ (ss : List Node) (level : Nat), ∀ m ∈ writeChain o ss level, Built m
  | [n], level, m, hm => by
      rw [writeChain] at hm
      exact writeElseIf_built n level m hm
  | [], _, _, hm | _ :: _ :: _, _, _, hm => by simp [writeChain] at hm

theorem writeElse_built : ∀ (no : Option (List Node)) (level : Nat), Built (writeElse o no level)
  | none, _ => by
      rw [writeElse]
      exact .pure _
  | some ss, level => by
      have hchain := writeChain_built ss level
      have hlines := writeStatements_built ss (level + 1)
      rw [writeElse]
      cases hc : writeChain o ss level with
      | some m => exact hchain m hc
      | none => exact .bind (.margin o level) fun _ => .bind hlines fun _ => .pure _

end

end Write

theorem writeProgram_built (o : Options) (ss : List Node) : Built (writeProgram o ss) :=
  .bind (.mapM fun s _ => write_built o s 0) fun _ => .pure _

end RToJulia.Julia
