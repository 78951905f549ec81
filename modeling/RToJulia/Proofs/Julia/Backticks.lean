import RToJulia.Julia.Session
import RToJulia.Proofs.Grammar.Soundness
import RToJulia.Proofs.Julia.CallNotes
import RToJulia.Proofs.Tree.Backticks
import RToJulia.Proofs.Tree.WellFormed

/-! # Backticks that are not written

A well-formed tree is written as the same text when its variables, assigned names,
variables of iterations and names of functions are put into backticks. The rule for a call
asks of an argument only its name, its text and whether its value is a string.
-/

namespace RToJulia.Julia

open Text Writer Node
open Grammar (splitOperator? splitOperator?_eq_some_iff)

/-! ## What writing asks of a node -/

def stringValue? : Node → Option Bytes
  | .string value => some value
  | _ => none

section Forms

variable (n : Node)

theorem stringValue?_quote : stringValue? (quote id n) = stringValue? n := by
  cases n with
  | function => exact apply_declared stringValue? (fun _ _ _ => rfl) (fun _ _ _ _ => rfl) _ _ _
  | _ => rfl

theorem isStringIndex_eq : isStringIndex n = (stringValue? n).isSome := by
  cases n <;> rfl

theorem isSequence_quote (o : Options) : isSequence o (quote id n) = isSequence o n := by
  cases n with
  | function => exact apply_declared (isSequence o) (fun _ _ _ => rfl) (fun _ _ _ _ => rfl) _ _ _
  | var name => simp [quote, isSequence]
  | _ => rfl

end Forms

/-! ## Calls -/

def Argument.quoted (a : Argument) : Argument :=
  { a with value := quote id a.value }

section Calls

variable (as : List Argument)

theorem positional_quoted :
    Argument.positional (as.map .quoted) = (Argument.positional as).map .quoted := by
  rw [Argument.positional, Argument.positional, List.filter_map]
  rfl

theorem lookup?_quoted (x : Bytes) :
    Argument.lookup? (as.map .quoted) x = (Argument.lookup? as x).map .quoted := by
  rw [Argument.lookup?, Argument.lookup?, List.find?_map]
  rfl

theorem writeAll_quoted : Argument.writeAll (as.map .quoted) = Argument.writeAll as := by
  rw [Argument.writeAll, Argument.writeAll, List.mapM_map]
  rfl

theorem writeNamed_quoted (key : Bytes → Bytes) :
    Argument.writeNamed (as.map .quoted) key = Argument.writeNamed as key := by
  have hnamed : Argument.named (as.map .quoted) =
      (Argument.named as).map fun p => (p.1, p.2.quoted) := by
    rw [Argument.named, Argument.named, List.filterMap_map, List.map_filterMap]
    congr 1
    funext a
    cases h : a.name <;> simp [Argument.quoted, h]
  rw [Argument.writeNamed, Argument.writeNamed, hnamed, List.mapM_map]
  rfl

theorem writeOptional_quoted (a? : Option Argument) :
    Argument.writeOptional (a?.map .quoted) = Argument.writeOptional a? := by
  cases a? <;> rfl

theorem plainCall_quoted (f : Bytes) : plainCall f (as.map .quoted) = plainCall f as := by
  simp only [plainCall, positional_quoted, writeAll_quoted, writeNamed_quoted]

theorem matrixCall_quoted (o : Options) : matrixCall o (as.map .quoted) = matrixCall o as := by
  have hdata : ((Argument.positional (as.map .quoted)).head? <|>
      Argument.lookup? (as.map .quoted) "data") =
        ((Argument.positional as).head? <|> Argument.lookup? as "data").map .quoted := by
    rw [positional_quoted, lookup?_quoted, List.head?_map]
    cases (Argument.positional as).head? <;> rfl
  rw [matrixCall, matrixCall, hdata]
  simp only [lookup?_quoted, writeOptional_quoted, plainCall_quoted]

theorem existsCall_cons {a : Argument} {more : List Argument}
    (h : Argument.positional as = a :: more) :
    existsCall as = match stringValue? a.value with
      | some name =>
          if isIdentifier name then return "isdefined(Main, :" ++ name ++ ")"
          else return "isdefined(Main, Symbol(" ++ (← a.write) ++ "))"
      | none => return "isdefined(Main, Symbol(" ++ (← a.write) ++ "))" := by
  rw [existsCall, h]
  obtain ⟨name, value, write⟩ := a
  cases value <;> rfl

theorem existsCall_quoted : existsCall (as.map .quoted) = existsCall as := by
  have hquoted := positional_quoted as
  cases h : Argument.positional as with
  | nil =>
      rw [h] at hquoted
      simp only [existsCall, hquoted, h, List.map_nil, plainCall_quoted]
  | cons a more =>
      rw [h, List.map_cons] at hquoted
      rw [existsCall_cons _ hquoted, existsCall_cons _ h, Argument.quoted, stringValue?_quote]

theorem writeCall_quoted (o : Options) (f : Bytes) :
    writeCall o f (as.map .quoted) = writeCall o f as := by
  simp only [writeCall, sequenceCall, mappingCall, printCall, tableCall, positional_quoted,
    writeAll_quoted, writeNamed_quoted, matrixCall_quoted, existsCall_quoted, plainCall_quoted]

theorem lookup?_quoteAll (args : List Node) (x : Bytes) :
    Node.lookup? (quoteAll id args) x = (Node.lookup? args x).map (quote id) := by
  have hnamed : namedArgs (quoteAll id args) = (namedArgs args).map fun p => (p.1, quote id p.2) := by
    rw [quoteAll_eq_map, namedArgs, namedArgs, List.filterMap_map, List.map_filterMap]
    congr 1
    funext n
    cases n with
    | function name params body =>
        simp only [Function.comp_apply, quote, declared]
        cases splitOperator? (inBackticks name) <;> rfl
    | _ => rfl
  rw [Node.lookup?, Node.lookup?, hnamed, List.find?_map, Option.map_map, Option.map_map]
  rfl

theorem recordClass?_eq (f : Bytes) (args : List Node) :
    recordClass? f args = if f = "structure" then (Node.lookup? args "class").bind stringValue?
      else none := by
  unfold recordClass?
  split
  · cases Node.lookup? args "class" with
    | none => rfl
    | some n => cases n <;> rfl
  · rfl

theorem constructed?_quote (value : Node) : constructed? (quote id value) = constructed? value := by
  cases value with
  | function => exact apply_declared constructed? (fun _ _ _ => rfl) (fun _ _ _ _ => rfl) _ _ _
  | call f args =>
      have hvalue : stringValue? ∘ quote id = stringValue? := funext stringValue?_quote
      rw [quote, constructed?, constructed?, recordClass?_eq, recordClass?_eq, lookup?_quoteAll,
        Option.bind_map, hvalue]
      rfl
  | _ => rfl

theorem writeAssign_eq (x : Bytes) (value : Node) (plain : Writer Bytes) :
    writeAssign x value plain as = match constructed? value with
      | some cls => do
          useRecord (recordName cls)
          let text ← match Argument.positional as with
            | a :: _ => a.write
            | [] => pure "nothing"
          return unquote x ++ " = " ++ recordName cls ++ "(" ++ text ++ ")"
      | none => return unquote x ++ " = " ++ (← plain) := by
  cases value <;> rfl

theorem writeAssign_quoted (x : Bytes) (value : Node) (plain : Writer Bytes) :
    writeAssign (inBackticks x) (quote id value) plain (as.map .quoted) =
      writeAssign x value plain as := by
  rw [writeAssign_eq, writeAssign_eq, constructed?_quote, unquote_inBackticks, positional_quoted]
  cases Argument.positional as <;> rfl

end Calls

/-! ## Loops -/

mutual

theorem assigned_quote (n : Node) :
    assigned (quote id n) = (assigned n).map (List.map inBackticks) := by
  cases n with
  | function =>
      exact apply_declared assigned (fun _ _ _ => rfl) (fun _ _ _ _ => rfl) _ _ _
  | assign name value =>
      rw [quote, assigned, assigned, assigned_quote value]
      cases assigned value <;> rfl
  | block ss => exact assignedAll_quote ss
  | ifElse cond yes no =>
      rw [quote, assigned, assigned, assigned_quote cond, assignedBody_quote yes,
        assignedElse_quote no]
      cases assigned cond <;> cases assignedBody yes <;> cases assignedElse no <;>
        simp [bind, Except.bind, Except.map, pure, Except.pure]
  | whileLoop cond body =>
      rw [quote, assigned, assigned, assigned_quote cond, assignedBody_quote body]
      cases assigned cond <;> cases assignedBody body <;>
        simp [bind, Except.bind, Except.map, pure, Except.pure]
  | forLoop _ start stop body =>
      rw [quote, assigned, assigned, assigned_quote start, assigned_quote stop,
        assignedBody_quote body]
      cases assigned start <;> cases assigned stop <;> cases assignedBody body <;>
        simp [bind, Except.bind, Except.map, pure, Except.pure]
  | exprStmt e => exact assigned_quote e
  | _ => rfl

theorem assignedAll_quote (ns : List Node) :
    assignedAll (quoteAll id ns) = (assignedAll ns).map (List.map inBackticks) := by
  cases ns with
  | nil => rfl
  | cons n ns =>
      rw [quoteAll, assignedAll, assignedAll, assigned_quote n, assignedAll_quote ns]
      cases assigned n <;> cases assignedAll ns <;>
        simp [bind, Except.bind, Except.map, pure, Except.pure]

theorem assignedBody_quote (body : Option (List Node)) :
    assignedBody (quoteBody id body) = (assignedBody body).map (List.map inBackticks) := by
  cases body with
  | none => rfl
  | some ss => exact assignedAll_quote ss

theorem assignedElse_quote (body : Option (List Node)) :
    assignedElse (quoteBody id body) = (assignedElse body).map (List.map inBackticks) := by
  cases body with
  | none => rfl
  | some ss => exact assignedAll_quote ss

end

theorem comparedVar_quote (cond : Node) :
    comparedVar (quote id cond) = (comparedVar cond).map inBackticks := by
  cases cond with
  | function => exact apply_declared comparedVar (fun _ _ _ => rfl) (fun _ _ _ _ => rfl) _ _ _
  | binary op left right =>
      cases left with
      | function =>
          exact apply_declared (fun n => comparedVar (.binary op n (quote id right)))
            (fun _ _ _ => rfl) (fun _ _ _ _ => rfl) _ _ _
      | _ => rfl
  | _ => rfl

/-- The names that a loop rebinds are bare of backticks already. -/
theorem loopBindings_quote (cond : Node) (body : Body) :
    loopBindings (quote id cond) (quoteBody id body) = loopBindings cond body := by
  have hunquote : unquote ∘ inBackticks = unquote := funext unquote_inBackticks
  unfold loopBindings
  rw [assignedBody_quote, comparedVar_quote]
  cases assignedBody body with
  | error reason => rfl
  | ok names =>
      simp [Except.map, bind, Except.bind, List.map_append, List.map_map, hunquote]

/-! ## Trees -/

theorem elementText_quote (o : Options) (targetNode indexNode : Node) (target i value : Bytes) :
    elementText o (quote id targetNode) (quote id indexNode) target i value =
      elementText o targetNode indexNode target i value := by
  simp only [elementText, isSequence_quote, isStringIndex_eq, stringValue?_quote]

theorem writeRange_quote {startNode : Node} (start stop : Writer Bytes) :
    writeRange (quote id startNode) start stop = writeRange startNode start stop := by
  cases startNode with
  | function =>
      exact apply_declared (writeRange · start stop) (fun _ _ _ => rfl) (fun _ _ _ _ => rfl) _ _ _
  | _ => rfl

theorem writeReturn_quote {valueNode : Node} (value : Writer Bytes) :
    writeReturn (quote id valueNode) value = writeReturn valueNode value := by
  cases valueNode with
  | function =>
      exact apply_declared (writeReturn · value) (fun _ _ _ => rfl) (fun _ _ _ _ => rfl) _ _ _
  | _ => rfl

/-- A function named like an operator for a class is written as the declaration of one. -/
theorem write_declared (o : Options) (name : Bytes) (params : List Bytes) (body : Body)
    (level : Nat) :
    write o (declared (inBackticks name) params body) level =
      write o (.function name params body) level := by
  unfold declared
  cases hsplit : splitOperator? (inBackticks name) with
  | none => simp [write]
  | some parts =>
      obtain ⟨op, cls⟩ := parts
      obtain ⟨hname, -, hcls, hdot, hdot'⟩ := splitOperator?_eq_some_iff.mp hsplit
      have hinner : unquote name = op ++ 0x2e :: cls := by
        rw [← unquote_inBackticks, hname, ← List.cons_append, unquote_quoted]
      have hcount : (op ++ 0x2e :: cls).count 0x2e = 1 := by
        simp [List.count_append, List.count_eq_zero_of_not_mem hdot,
          List.count_eq_zero_of_not_mem hdot']
      have hclass : operatorClass? (unquote name) =
          if (operator? op).isSome then some (op, cls) else none := by
        rw [hinner, operatorClass?, cut_append hdot]
        simp [hcount, hcls]
      dsimp only
      rw [write, write, hclass]
      cases hop : operator? op with
      | none => simp [hinner, show utf8 "." = [0x2e] from rfl]
      | some julia => simp only [Option.isSome_some, if_true, hop, Option.getD_some]

section Write

variable (o : Options)

mutual

theorem write_quoteExpr (n : Node) (level : Nat) (h : isExpr n = true) :
    write o (quote id n) level = write o n level := by
  cases n with
  | assign name value =>
      rw [isExpr] at h
      rw [quote, write, write, write_quoteExpr value level h, callArguments_quote value level h,
        writeAssign_quoted]
  | assignIndex target i value =>
      simp only [isExpr, Bool.and_eq_true] at h
      simp only [quote, write, write_quoteExpr target level h.1.1, write_quoteExpr i level h.1.2,
        write_quoteExpr value level h.2, elementText_quote]
  | call name args =>
      simp only [isExpr, Bool.and_eq_true] at h
      rw [quote, write, write, arguments_quoteAll args level h.1, writeCall_quoted]
      rfl
  | binary op left right =>
      simp only [isExpr, Bool.and_eq_true] at h
      simp only [quote, write, write_quoteExpr left level h.1, write_quoteExpr right level h.2]
  | unary op operand =>
      rw [isExpr] at h
      simp only [quote, write, write_quoteExpr operand level h]
  | var name => simp only [quote, write, unquote_inBackticks]
  | int digits | float value | string value | bool value => rfl
  | index target i =>
      simp only [isExpr, Bool.and_eq_true] at h
      simp only [quote, write, write_quoteExpr target level h.1, write_quoteExpr i level h.2]
  | field target name =>
      rw [isExpr] at h
      simp only [quote, write, write_quoteExpr target level h, id]
  | predicate test e =>
      simp only [isExpr, Bool.and_eq_true] at h
      simp only [quote, write, write_quoteExpr e level h.2]
  | _ => simp [isExpr] at h

theorem callArguments_quote (n : Node) (level : Nat) (h : isExpr n = true) :
    callArguments o (quote id n) level = (callArguments o n level).map .quoted := by
  cases n with
  | function => simp [isExpr] at h
  | call name args =>
      simp only [isExpr, Bool.and_eq_true] at h
      exact arguments_quoteAll args level h.1
  | _ => rfl

theorem arguments_quoteAll (args : List Node) (level : Nat) (h : areArgs args = true) :
    arguments o (quoteAll id args) level = (arguments o args level).map .quoted := by
  cases args with
  | nil => rfl
  | cons n args =>
      simp only [areArgs, Bool.and_eq_true, Bool.or_eq_true] at h
      rw [quoteAll, arguments, arguments, arguments_quoteAll args level h.2, List.map_cons]
      congr 1
      cases n with
      | named name value =>
          have hvalue : isExpr value = true := by simpa [isExpr, isNamedExpr] using h.1
          simp only [quote, argument, Argument.quoted, writeNamedValue,
            write_quoteExpr value level hvalue, id]
      | function => simp [isExpr, isNamedExpr] at h
      | _ =>
          have hn := h.1.resolve_right (by simp [isNamedExpr])
          exact congrArg (Argument.mk none _) (write_quoteExpr _ level hn)

end

mutual

/-- A statement is written alike when its names are put into the backticks that are not written. -/
theorem write_quote (n : Node) (level : Nat) (h : isStatement n = true) :
    write o (quote id n) level = write o n level := by
  cases n with
  | assign name value => exact write_quoteExpr o _ level (by rwa [isStatement] at h)
  | assignIndex target i value => exact write_quoteExpr o _ level (by rwa [isStatement] at h)
  | exprStmt e =>
      simp only [isStatement, Bool.and_eq_true] at h
      simp only [quote, write, write_quoteExpr o e level h.1]
  | ifElse cond yes no =>
      simp only [isStatement, Bool.and_eq_true] at h
      simp only [quote, write, write_quoteExpr o cond level h.1.1, writeBody_quote yes level h.1.2,
        writeElse_quote no level h.2]
  | whileLoop cond body =>
      simp only [isStatement, Bool.and_eq_true] at h
      simp only [quote, write, loopBindings_quote, write_quoteExpr o cond _ h.1,
        writeBody_quote body _ h.2]
  | forLoop name start stop body =>
      simp only [isStatement, Bool.and_eq_true, Bool.or_eq_true] at h
      have hstart : write o (quote id start) level = write o start level := by
        rcases h.1.1 with hstart | ⟨hgap, -⟩
        · exact write_quoteExpr o start level hstart
        · rw [eq_gap_of_isGap hgap]
          rfl
      simp only [quote, write, hstart, write_quoteExpr o stop level h.1.2, writeRange_quote,
        writeBody_quote body level h.2, unquote_inBackticks]
  | function name params body =>
      simp only [isStatement, Bool.and_eq_true] at h
      rw [quote, write_declared, write, write, writeBody_quote body level h.2, List.map_id]
  | operator op cls params body =>
      simp only [isStatement, Bool.and_eq_true] at h
      rw [quote, write, write, writeBody_quote body level h.2, List.map_id]
  | ret value =>
      simp only [isStatement, Bool.or_eq_true] at h
      have hvalue : write o (quote id value) level = write o value level := by
        rcases h with hvalue | hgap
        · exact write_quoteExpr o value level hvalue
        · rw [eq_gap_of_isGap hgap]
          rfl
      simp only [quote, write, hvalue, writeReturn_quote]
  | _ => simp [isStatement] at h

theorem writeStatements_quote (ss : List Node) (level : Nat) (h : areStatements ss = true) :
    writeStatements o (quoteAll id ss) level = writeStatements o ss level := by
  cases ss with
  | nil => rfl
  | cons s ss =>
      simp only [areStatements, Bool.and_eq_true] at h
      simp only [quoteAll, writeStatements, write_quote s level h.1,
        writeStatements_quote ss level h.2]

theorem writeBody_quote (body : Option (List Node)) (level : Nat) (h : isBody body = true) :
    writeBody o (quoteBody id body) level = writeBody o body level := by
  cases body with
  | none => rfl
  | some ss =>
      rw [isBody] at h
      simp only [quoteBody, writeBody, writeStatements_quote ss _ h]

theorem writeElseIf_quote (n : Node) (level : Nat) (h : isStatement n = true) :
    writeElseIf o (quote id n) level = writeElseIf o n level := by
  cases n with
  | ifElse cond yes no =>
      simp only [isStatement, Bool.and_eq_true] at h
      simp only [quote, writeElseIf, write_quoteExpr o cond level h.1.1,
        writeBody_quote yes level h.1.2, writeElse_quote no level h.2]
  | function =>
      exact apply_declared (writeElseIf o · level) (fun _ _ _ => rfl) (fun _ _ _ _ => rfl) _ _ _
  | _ => rfl

theorem writeChain_quote (ss : List Node) (level : Nat) (h : areStatements ss = true) :
    writeChain o (quoteAll id ss) level = writeChain o ss level := by
  match ss with
  | [] => rfl
  | [n] =>
      simp only [areStatements, Bool.and_eq_true] at h
      exact writeElseIf_quote n level h.1
  | _ :: _ :: _ => rfl

theorem writeElse_quote (no : Option (List Node)) (level : Nat) (h : isElse no = true) :
    writeElse o (quoteBody id no) level = writeElse o no level := by
  cases no with
  | none => rfl
  | some ss =>
      rw [isElse] at h
      simp only [quoteBody, writeElse, writeChain_quote ss level h, writeStatements_quote ss _ h]

end

/-- A program is written alike in a session when its names are put into the backticks that are
not written. -/
theorem generate_quoteAll (s : Session) {ss : List Node} (h : areStatements ss = true) :
    s.generate o (quoteAll id ss) = s.generate o ss := by
  have hlines : (quoteAll id ss).mapM (write o · 0) = ss.mapM (write o · 0) := by
    induction ss with
    | nil => rfl
    | cons n ss ih =>
        simp only [areStatements, Bool.and_eq_true] at h
        rw [quoteAll, List.mapM_cons, List.mapM_cons, write_quote o n 0 h.1, ih h.2]
  unfold Session.generate writeProgram
  rw [hlines]

end Write

end RToJulia.Julia
