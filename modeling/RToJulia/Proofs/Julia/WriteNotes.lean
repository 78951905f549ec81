import RToJulia.Proofs.Julia.CallNotes

/-! # Leaves left by the writer of a tree

The writer of a node leaves the notes of the nodes written with it, and no others.
-/

namespace RToJulia.Julia

open Text Writer Argument
open Node (content isSilent areSilent)

/-! ## Statements -/

theorem intercalate_lead (line : Bytes) (lines : List Bytes) :
    line <+: List.intercalate (utf8 "\n") (line :: lines) := by
  cases lines with
  | nil => simp
  | cons next lines => simp [List.intercalate_cons_cons]

theorem intercalate_ne_nil {line : Bytes} (h : line ≠ []) (lines : List Bytes) :
    List.intercalate (utf8 "\n") (line :: lines) ≠ [] := by
  obtain ⟨rest, heq⟩ := intercalate_lead line lines
  simp [← heq, h]

theorem joinLines_lead {line : Bytes} (h : line ≠ []) (lines : List Bytes) :
    line <+: joinLines (line :: lines) := by
  rw [joinLines, joinNonempty, List.filter_cons_of_pos (by simpa using h)]
  exact intercalate_lead line _

theorem joinLines_ne_nil {line : Bytes} (h : line ≠ []) (lines : List Bytes) :
    joinLines (line :: lines) ≠ [] := by
  obtain ⟨rest, heq⟩ := joinLines_lead h lines
  simp [← heq, h]

theorem floatLiteral_ne_nil (x : Decimal.Binary64) : floatLiteral x ≠ [] := by
  unfold floatLiteral
  dsimp only
  split
  · rename_i hshows
    intro hnil
    rw [hnil] at hshows
    exact nomatch hshows
  · exact closed_ne_nil _ (by decide)

theorem binaryText_ne_nil (op left right : Bytes) : binaryText op left right ≠ [] := by
  unfold binaryText
  split
  · simp [show utf8 ":" ≠ [] by decide]
  · exact closed_ne_nil _ (by decide)

theorem elementText_ne_nil (o : Options) (target index : Node) (t i v : Bytes) :
    elementText o target index t i v ≠ [] := by
  unfold elementText
  split
  · simp [show utf8 "] = " ≠ [] by decide]
  split
  · simp [show utf8 "] = " ≠ [] by decide]
  · simp [show utf8 "] = " ≠ [] by decide]

theorem NamesRecord.ne_nil {type t : Bytes} (h : NamesRecord type t) : t ≠ [] := by
  cases h with
  | construction x value => exact closed_ne_nil _ (by decide)
  | method op left right rest hlead => simp [show utf8 "::" ≠ [] by decide]

/-- A method is declared for two values of its record type, however long its body is. -/
theorem methodText_names (op type : Bytes) (params : List Bytes) (body inner margin : Bytes) :
    NamesRecord type (methodText (methodSignature op type params) body inner margin) := by
  have hsigned : ∀ lead rest : Bytes, lead = [] ∨ lead = "function " →
      NamesRecord type (lead ++ methodSignature op type params ++ rest) :=
    fun lead rest hlead => .method op (operands params).1 (operands params).2 rest hlead
  unfold methodText
  split
  · exact hsigned [] _ (.inl rfl)
  split
  · have htext := hsigned [] (" = " ++ dropLead "return " (dropLead inner body)) (.inl rfl)
    simpa only [List.append_assoc, List.nil_append] using htext
  · have hfirst : utf8 "function " ++ methodSignature op type params ≠ [] := by
      simp [show utf8 "function " ≠ [] by decide]
    obtain ⟨rest, heq⟩ := joinLines_lead hfirst [body, margin ++ "end"]
    rw [← heq]
    exact hsigned "function " rest (.inr rfl)

section Frames

variable {o : Options} {level : Nat} {P : Bytes → Prop} {U V : Note → Prop} {cond body : Writer Bytes}

theorem writeMethod_leaves (op cls : Bytes) (params : List Bytes)
    (hb : Leaves (fun _ => True) U body) :
    Leaves (NamesRecord (recordName cls)) (fun k => k = .record (recordName cls) ∨ U k)
      (writeMethod o level op cls params body) := by
  have hm : Leaves (NamesRecord (recordName cls)) _ (writeMethod o level op cls params body) :=
    .seq (.useRecord _) fun _ => .seq (.margin o _) fun _ => .seq hb fun _ =>
      .seq (.margin o _) fun _ => .pure fun _ _ _ _ => methodText_names _ _ _ _ _ _
  exact hm.congr (by simp)

theorem construction_leaves (x cls : Bytes) {first : Writer Bytes} (hfirst : Leaves (fun _ => True) U first) :
    Leaves (NamesRecord (recordName cls)) (fun k => k = .record (recordName cls) ∨ U k)
      (do useRecord (recordName cls)
          let text ← first
          return unquote x ++ " = " ++ recordName cls ++ "(" ++ text ++ ")" : Writer Bytes) := by
  have hnames : ∀ text : Bytes, NamesRecord (recordName cls)
      (unquote x ++ " = " ++ recordName cls ++ "(" ++ text ++ ")") :=
    fun text => .construction (unquote x) text
  exact Leaves.congr (.seq (.useRecord _) fun _ => .seq hfirst fun text => .pure fun _ _ => hnames text)
    (by simp)

theorem writeFunction_leaves (x : Bytes) (params : List Bytes) (hb : Leaves (fun _ => True) U body) :
    Leaves (fun t => t ≠ []) U (writeFunction o level x params body) := by
  have hm : Leaves (fun t => t ≠ []) _ (writeFunction o level x params body) :=
    .seq hb fun _ => .seq (.margin o _) fun _ => .pure fun _ _ =>
      joinLines_ne_nil (closed_ne_nil _ (by decide)) _
  exact hm.congr (by simp)

theorem writeWhile_leaves (hc : Leaves P U cond) (hb : Leaves (fun _ => True) V body) :
    Leaves (fun t => t ≠ []) (fun k => U k ∨ V k) (writeWhile o level cond body) := by
  have hm : Leaves (fun t => t ≠ []) _ (writeWhile o level cond body) :=
    .seq hc fun _ => .seq hb fun _ => .seq (.margin o _) fun _ => .pure fun _ _ _ =>
      joinLines_ne_nil (by simp [show utf8 "while " ≠ [] by decide]) _
  exact hm.congr (by simp)

theorem writeLet_leaves (names : List Bytes) (hb : Leaves P U body) :
    Leaves (fun t => t ≠ []) U (writeLet o level names body) := by
  have hm : Leaves (fun t => t ≠ []) _ (writeLet o level names body) :=
    .seq (.margin o _) fun _ => .seq hb fun _ => .seq (.margin o _) fun _ => .pure fun _ _ _ =>
      joinLines_ne_nil (by simp [show utf8 "let " ≠ [] by decide]) _
  exact hm.congr (by simp)

theorem bodyLine_leaves (text : Bytes) :
    Leaves (fun lines => (∀ line ∈ lines, line ≠ []) ∧ (lines = [] ↔ text = [])) (fun _ => False)
      (bodyLine o level text) := by
  unfold bodyLine
  split
  · rename_i h
    exact .pure (by simp [h])
  · rename_i h
    exact Leaves.congr (.seq (.margin o _) fun _ => .pure fun _ => by simp [h]) (by simp)

theorem writeRange_leaves {start stop : Node} (ha : Traced o level start) (hb : Traced o level stop) :
    Leaves (fun _ => True) (fun k => LeftBy o start k ∨ LeftBy o stop k)
      (writeRange start (write o start level) (write o stop level)) := by
  unfold writeRange
  split
  · exact hb.leaves.congr (by simp [leftBy_iff (n := .gap), ownNote?, ownRecord?, parts])
  · exact Leaves.congr (.seq ha fun _ => .seq hb fun _ => .pure fun _ _ => trivial) (by simp)

theorem writeReturn_leaves {value : Node} (hv : Traced o level value) :
    Leaves (fun t => t ≠ []) (LeftBy o value) (writeReturn value (write o value level)) := by
  unfold writeReturn
  split
  · exact Leaves.congr (.pure (by decide)) (by simp [leftBy_iff (n := .gap), ownNote?, ownRecord?, parts])
  · exact Leaves.congr (.seq hv fun _ => .pure fun _ => by simp [show utf8 "return " ≠ [] by decide])
      (by simp)

end Frames

/-- A node that is never silent, from the writer of its text. -/
theorem Leaves.of_text {o : Options} {n : Node} {U : Note → Prop} {m : Writer Bytes}
    (hb : isSilent n = false) (hm : Leaves (fun t => t ≠ []) U m) (hu : ∀ k, U k ↔ LeftBy o n k) :
    Leaves (fun t => t = [] ↔ isSilent n = true) (LeftBy o n) (Writer.unlessRefused m) :=
  .unlessRefused (hm.mono (fun t ht => by simp [ht, hb]) hu)

section Write

variable (o : Options)

/-- A record construction names its type and writes its first value; any other value is written
as it is. -/
theorem writeAssign_leaves {level : Nat} (x : Bytes) {value : Node} (hvalue : Traced o level value)
    (hargs : ∀ f args, value = .call f args → ∀ n ∈ args, Traced o level (content n)) :
    Leaves (fun t => t ≠ [] ∧ ∀ type ∈ ownRecord? (.assign x value), NamesRecord type t)
      (LeftBy o (.assign x value))
      (writeAssign x value (write o value level) (callArguments o value level)) := by
  have hplain : constructed? value = none →
      Leaves (fun t => t ≠ [] ∧ ∀ type ∈ ownRecord? (.assign x value), NamesRecord type t)
        (LeftBy o value) (do return unquote x ++ " = " ++ (← write o value level) : Writer Bytes) := by
    intro hnone
    refine Leaves.congr (.seq hvalue fun _ => .pure fun _ => ⟨?_, ?_⟩) (by simp)
    · simp [show utf8 " = " ≠ [] by decide]
    · simp [ownRecord?, hnone]
  cases value with
  | call f args =>
      rw [callArguments, arguments_eq_map, writeAssign, positional_of]
      have htraced := fun n hn => positional_traced (hargs f args rfl) (n := n) hn
      cases hcls : recordClass? f args with
      | none =>
          exact (hplain hcls).congr (by simp [leftBy_iff (n := .assign x (.call f args)), ownNote?,
            ownRecord?, constructed?, parts, hcls])
      | some cls =>
          have hown : ownRecord? (.assign x (.call f args)) = some (recordName cls) := by
            simp [ownRecord?, constructed?, hcls]
          have hnamed : ∀ t, NamesRecord (recordName cls) t → t ≠ [] ∧
              ∀ type ∈ ownRecord? (.assign x (.call f args)), NamesRecord type t := by
            intro t ht
            rw [hown]
            exact ⟨ht.ne_nil, by rintro type ⟨⟩; exact ht⟩
          cases hpos : Node.positional args with
          | nil =>
              exact (construction_leaves x cls (.pure trivial)).mono hnamed (by
                simp [leftBy_iff (n := .assign x (.call f args)), ownNote?, hown, parts, constructed?,
                  hcls, hpos, eq_comm])
          | cons n ns =>
              have hn : n ∈ Node.positional args := hpos ▸ List.mem_cons_self
              simp only [List.map_cons, argumentOf, Node.content_of_positional hn]
              exact (construction_leaves x cls (htraced n hn).leaves).mono hnamed (by
                simp [leftBy_iff (n := .assign x (.call f args)), ownNote?, hown, parts, constructed?,
                  hcls, hpos, eq_comm])
  | _ =>
      exact (hplain rfl).congr (by simp [leftBy_iff (n := .assign x _), ownNote?, ownRecord?,
        constructed?, parts])

mutual

/-- One case per form of node: what it names itself, and what is written inside it. -/
theorem write_traced : ∀ (n : Node) (level : Nat), Traced o level n
  | .gap, level => by
      rw [Traced, write]
      exact Leaves.congr (.pure (by simp [isSilent])) (by simp [leftBy_iff (n := .gap), ownNote?, ownRecord?, parts])
  | .block ss, level => by
      rw [Traced, write]
      refine .unlessRefused (Leaves.congr (.seq (writeStatements_leaves ss (level + 1)) fun lines =>
        .pure fun ⟨hlines, hblank⟩ => ?_) (by simp [leftBy_iff (n := .block ss), ownNote?, ownRecord?, parts]))
      rw [isSilent, ← hblank]
      cases lines with
      | nil => simp
      | cons line lines => simp [intercalate_ne_nil (hlines line (by simp)) lines]
  | .assign x value, level => by
      rw [Traced, write]
      have hassign := writeAssign_leaves o x (write_traced value level) (callArguments_traced value level)
      exact .of_text rfl (hassign.mono (fun _ ht => ht.1) fun _ => Iff.rfl) fun _ => Iff.rfl
  | .assignIndex target i value, level => by
      rw [Traced, write]
      exact .of_text rfl
        (.seq (write_traced target level) fun _ => .seq (write_traced i level) fun _ =>
          .seq (write_traced value level) fun _ => .pure fun _ _ _ => elementText_ne_nil _ _ _ _ _ _)
        (by simp [leftBy_iff (n := .assignIndex target i value), ownNote?, ownRecord?, parts])
  | .exprStmt e, level => by
      rw [Traced, write]
      exact .unlessRefused (Leaves.mono (write_traced e level) (by simp [isSilent])
        (by simp [leftBy_iff (n := .exprStmt e), ownNote?, ownRecord?, parts]))
  | .ifElse cond yes no, level => by
      rw [Traced, write]
      exact .of_text rfl
        (.seq (write_traced cond level) fun _ => .seq (writeBody_leaves yes level) fun _ =>
          .seq (writeElse_leaves no level) fun _ => .seq (.margin o _) fun _ => .pure fun _ _ _ _ =>
            joinLines_ne_nil (by simp [show utf8 "if " ≠ [] by decide]) _)
        (by simp [leftBy_iff (n := .ifElse cond yes no), ownNote?, ownRecord?, parts, or_and_right, exists_or])
  | .whileLoop cond body, level => by
      have hloop : ∀ level, Leaves (fun t => t ≠ []) _
          (writeWhile o level (write o cond level) (writeBody o body level)) :=
        fun level => writeWhile_leaves (write_traced cond level) (writeBody_leaves body level)
      -- The names it binds decide the level of the loop, not what is written in it.
      rw [Traced, write]
      refine .of_text rfl
        (.seq (V := fun k => LeftBy o cond k ∨ ∃ s ∈ body.getD [], LeftBy o s k) (.lift _) fun names => ?_)
        (by simp [leftBy_iff (n := .whileLoop cond body), ownNote?, ownRecord?, parts])
      split
      · exact (hloop level).mono (fun _ ht _ => ht) fun _ => Iff.rfl
      · exact (writeLet_leaves names (hloop (level + 1))).mono (fun _ ht _ => ht) fun _ => Iff.rfl
  | .forLoop x start stop body, level => by
      rw [Traced, write]
      exact .of_text rfl
        (.seq (writeRange_leaves (write_traced start level) (write_traced stop level)) fun _ =>
          .seq (writeBody_leaves body level) fun _ => .seq (.margin o _) fun _ => .pure fun _ _ _ =>
            joinLines_ne_nil (by simp [show utf8 "for " ≠ [] by decide]) _)
        (by simp [leftBy_iff (n := .forLoop x start stop body), ownNote?, ownRecord?, parts, or_assoc])
  | .function x params body, level => by
      have hbody := writeBody_leaves body level
      rw [Traced, write]
      cases hop : operatorClass? (unquote x) with
      | none =>
          exact .of_text rfl (writeFunction_leaves _ params hbody)
            (by simp [leftBy_iff (n := .function x params body), ownNote?, ownRecord?, parts, hop])
      | some method =>
          exact .of_text rfl
            ((writeMethod_leaves _ _ params hbody).mono (fun _ => NamesRecord.ne_nil) fun _ => Iff.rfl)
            (by simp [leftBy_iff (n := .function x params body), ownNote?, ownRecord?, parts, hop, eq_comm])
  | .operator op cls params body, level => by
      have hbody := writeBody_leaves body level
      rw [Traced, write]
      cases hop : operator? op with
      | none =>
          exact .of_text rfl (writeFunction_leaves _ params hbody)
            (by simp [leftBy_iff (n := .operator op cls params body), ownNote?, ownRecord?, parts, hop])
      | some spelling =>
          exact .of_text rfl
            ((writeMethod_leaves _ _ params hbody).mono (fun _ => NamesRecord.ne_nil) fun _ => Iff.rfl)
            (by simp [leftBy_iff (n := .operator op cls params body), ownNote?, ownRecord?, parts, hop, eq_comm])
  | .ret value, level => by
      rw [Traced, write]
      exact .of_text rfl (writeReturn_leaves (write_traced value level))
        (by simp [leftBy_iff (n := .ret value), ownNote?, ownRecord?, parts])
  | .call f args, level => by
      have hcall := writeCall_leaves (arguments_traced args level) f
      rw [← arguments_eq_map] at hcall
      have htext : ∀ t, callLead o f args <+: t → t ≠ [] := fun t hlead hnil =>
        callLead_ne_nil o f args (List.prefix_nil.mp (hnil ▸ hlead))
      rw [Traced, write]
      exact .of_text rfl (hcall.mono htext fun _ => Iff.rfl)
        (by simp [leftBy_iff (n := .call f args), ownNote?, parts])
  | .binary op left right, level => by
      rw [Traced, write]
      exact .of_text rfl
        (.seq (write_traced left level) fun _ => .seq (write_traced right level) fun _ =>
          .pure fun _ _ => binaryText_ne_nil _ _ _)
        (by simp [leftBy_iff (n := .binary op left right), ownNote?, ownRecord?, parts])
  | .unary op operand, level => by
      rw [Traced, write]
      exact .of_text rfl
        (.seq (write_traced operand level) fun _ => .pure fun _ => closed_ne_nil _ (by decide))
        (by simp [leftBy_iff (n := .unary op operand), ownNote?, ownRecord?, parts])
  | .var x, level => by
      rw [Traced, write]
      exact .unlessRefused (Leaves.congr (.pure (by simp [isSilent]))
        (by simp [leftBy_iff (n := .var x), ownNote?, ownRecord?, parts]))
  | .int digits, level => by
      rw [Traced, write]
      exact .unlessRefused (Leaves.congr (.pure (by simp [isSilent]))
        (by simp [leftBy_iff (n := .int digits), ownNote?, ownRecord?, parts]))
  | .float value, level => by
      rw [Traced, write]
      exact .of_text rfl
        (.pure (floatLiteral_ne_nil value))
        (by simp [leftBy_iff (n := .float value), ownNote?, ownRecord?, parts])
  | .string value, level => by
      rw [Traced, write]
      exact .of_text rfl
        (.pure (by simp [stringLiteral]))
        (by simp [leftBy_iff (n := .string value), ownNote?, ownRecord?, parts])
  | .bool value, level => by
      rw [Traced, write]
      exact .of_text rfl
        (.pure (by cases value <;> decide))
        (by simp [leftBy_iff (n := .bool value), ownNote?, ownRecord?, parts])
  | .index target i, level => by
      rw [Traced, write]
      exact .of_text rfl
        (.seq (write_traced target level) fun _ => .seq (write_traced i level) fun _ =>
          .pure fun _ _ => closed_ne_nil _ (by decide))
        (by simp [leftBy_iff (n := .index target i), ownNote?, ownRecord?, parts])
  | .field target x, level => by
      rw [Traced, write]
      exact .of_text rfl
        (.seq (write_traced target level) fun _ => .pure fun _ => closed_ne_nil _ (by decide))
        (by simp [leftBy_iff (n := .field target x), ownNote?, ownRecord?, parts])
  | .predicate test e, level => by
      rw [Traced, write]
      exact .of_text rfl
        (.seq (write_traced e level) fun _ => .pure fun _ => closed_ne_nil _ (by decide))
        (by simp [leftBy_iff (n := .predicate test e), ownNote?, ownRecord?, parts])
  | .named x value, level => by
      rw [Traced, write]
      exact .unlessRefused (.refuse _)
  | .program ss, level => by
      rw [Traced, write]
      exact .unlessRefused (.refuse _)

theorem namedValue_traced : ∀ (n : Node) (level : Nat), n.isNamed = true → Traced o level (content n)
  | .named _ value, level, _ => write_traced value level
  | .gap, _, h | .program _, _, h | .block _, _, h | .assign .., _, h | .assignIndex .., _, h
  | .exprStmt _, _, h | .ifElse .., _, h | .whileLoop .., _, h | .forLoop .., _, h
  | .function .., _, h | .operator .., _, h | .ret _, _, h | .call .., _, h | .binary .., _, h
  | .unary .., _, h | .var _, _, h | .int _, _, h | .float _, _, h | .string _, _, h
  | .bool _, _, h | .index .., _, h | .field .., _, h | .predicate .., _, h => nomatch h

theorem arguments_traced : ∀ (args : List Node) (level : Nat), ∀ n ∈ args, Traced o level (content n)
  | [], _, _, h => nomatch h
  | n :: args, level, a, h => by
      -- Both are stated of the head itself, so that the recursion sees a smaller tree.
      have hwhole := write_traced n level
      have hvalue := namedValue_traced n level
      have hargs := arguments_traced args level
      rcases List.mem_cons.mp h with rfl | h
      · by_cases hnamed : a.isNamed = true
        · exact hvalue hnamed
        · have ha : a ∈ Node.positional [a] := by simp [Node.positional, hnamed]
          rwa [Node.content_of_positional ha]
      · exact hargs a h

theorem callArguments_traced : ∀ (value : Node) (level : Nat), ∀ f args, value = .call f args →
    ∀ n ∈ args, Traced o level (content n)
  | .call _ args, level, _, _, h => by
      cases h
      exact arguments_traced args level
  | .gap, _, _, _, h | .program _, _, _, _, h | .block _, _, _, _, h | .assign .., _, _, _, h
  | .assignIndex .., _, _, _, h | .exprStmt _, _, _, _, h | .ifElse .., _, _, _, h
  | .whileLoop .., _, _, _, h | .forLoop .., _, _, _, h | .function .., _, _, _, h
  | .operator .., _, _, _, h | .ret _, _, _, _, h | .named .., _, _, _, h | .binary .., _, _, _, h
  | .unary .., _, _, _, h | .var _, _, _, _, h | .int _, _, _, _, h | .float _, _, _, _, h
  | .string _, _, _, _, h | .bool _, _, _, _, h | .index .., _, _, _, h | .field .., _, _, _, h
  | .predicate .., _, _, _, h => nomatch h

theorem writeStatements_leaves : ∀ (ss : List Node) (level : Nat),
    Leaves (fun lines => (∀ line ∈ lines, line ≠ []) ∧ (lines = [] ↔ areSilent ss = true))
      (fun k => ∃ s ∈ ss, LeftBy o s k) (writeStatements o ss level)
  | [], level => by
      rw [writeStatements]
      exact Leaves.congr (.pure (by simp [areSilent])) (by simp)
  | s :: ss, level => by
      rw [writeStatements]
      refine Leaves.congr (.seq (write_traced s level) fun text => .seq (bodyLine_leaves text) fun line =>
        .seq (writeStatements_leaves ss level) fun lines => .pure ?_) (by simp)
      rintro ⟨hlines, hblank⟩ ⟨hline, htext⟩ hs
      refine ⟨?_, by rw [List.append_eq_nil_iff, htext, hs, hblank, areSilent, Bool.and_eq_true]⟩
      intro l hl
      rcases List.mem_append.mp hl with hl | hl
      · exact hline l hl
      · exact hlines l hl

theorem writeBody_leaves : ∀ (body : Option (List Node)) (level : Nat),
    Leaves (fun _ => True) (fun k => ∃ s ∈ body.getD [], LeftBy o s k) (writeBody o body level)
  | none, _ => by
      rw [writeBody]
      exact .halt
  | some ss, level => by
      rw [writeBody]
      exact Leaves.congr (.seq (writeStatements_leaves ss (level + 1)) fun _ => .pure fun _ => trivial)
        (by simp)

theorem writeElseIf_leaves : ∀ (n : Node) (level : Nat), ∀ m ∈ writeElseIf o n level,
    Leaves (fun _ => True) (LeftBy o n) m
  | .ifElse cond yes no, level, m, hm => by
      rw [writeElseIf] at hm
      cases hm
      exact Leaves.congr (.seq (.margin o _) fun _ => .seq (write_traced cond level) fun _ =>
        .seq (writeBody_leaves yes level) fun _ => .seq (writeElse_leaves no level) fun _ =>
          .pure fun _ _ _ _ => trivial)
        (by simp [leftBy_iff (n := .ifElse cond yes no), ownNote?, ownRecord?, parts, or_and_right, exists_or])
  | .gap, _, _, h | .program _, _, _, h | .block _, _, _, h | .assign .., _, _, h
  | .assignIndex .., _, _, h | .exprStmt _, _, _, h | .whileLoop .., _, _, h | .forLoop .., _, _, h
  | .function .., _, _, h | .operator .., _, _, h | .ret _, _, _, h | .call .., _, _, h
  | .named .., _, _, h | .binary .., _, _, h | .unary .., _, _, h | .var _, _, _, h
  | .int _, _, _, h | .float _, _, _, h | .string _, _, _, h | .bool _, _, _, h
  | .index .., _, _, h | .field .., _, _, h | .predicate .., _, _, h => by
      simp [writeElseIf] at h

theorem writeChain_leaves : ∀ (ss : List Node) (level : Nat), ∀ m ∈ writeChain o ss level,
    Leaves (fun _ => True) (fun k => ∃ s ∈ ss, LeftBy o s k) m
  | [n], level, m, hm => by
      rw [writeChain] at hm
      exact (writeElseIf_leaves n level m hm).congr (by simp)
  | [], _, _, hm | _ :: _ :: _, _, _, hm => by simp [writeChain] at hm

theorem writeElse_leaves : ∀ (no : Option (List Node)) (level : Nat),
    Leaves (fun _ => True) (fun k => ∃ s ∈ no.getD [], LeftBy o s k) (writeElse o no level)
  | none, _ => by
      rw [writeElse]
      exact Leaves.congr (.pure trivial) (by simp)
  | some ss, level => by
      have hchain := writeChain_leaves ss level
      have hlines := writeStatements_leaves ss (level + 1)
      rw [writeElse]
      cases hc : writeChain o ss level with
      | some m => exact hchain m hc
      | none =>
          exact Leaves.congr (.seq (.margin o _) fun _ => .seq hlines fun _ => .pure fun _ _ => trivial)
            (by simp)

end

/-- The text of a call begins with the function that it invokes. -/
theorem write_call_lead {f : Bytes} {args : List Node} {level : Nat} {w w' : Work} {text : Bytes}
    (h : write o (.call f args) level w = .ok (text, w')) (hw' : w'.unsupported = none) :
    callLead o f args <+: text := by
  have hcall := writeCall_leaves (arguments_traced o args level) f
  rw [← arguments_eq_map] at hcall
  rw [write] at h
  exact ((hcall.unlessRefused w text w' h).2 hw').1

/-- The text of a node with a record type of its own names that type. -/
theorem write_names_record {n : Node} {type : Bytes} {level : Nat} {w w' : Work} {text : Bytes}
    (hn : ownRecord? n = some type) (h : write o n level w = .ok (text, w'))
    (hw' : w'.unsupported = none) : NamesRecord type text := by
  cases n with
  | assign x value =>
      have hassign := writeAssign_leaves o x (write_traced o value level)
        (callArguments_traced o value level)
      rw [write] at h
      exact ((hassign.unlessRefused w text w' h).2 hw').1.2 type hn
  | function x params body =>
      have hbody := writeBody_leaves o body level
      obtain ⟨method, hop, rfl⟩ := Option.map_eq_some_iff.mp hn
      rw [write, hop] at h
      exact (((writeMethod_leaves _ _ params hbody).unlessRefused w text w' h).2 hw').1
  | operator op cls params body =>
      have hbody := writeBody_leaves o body level
      obtain ⟨spelling, hop, rfl⟩ := Option.map_eq_some_iff.mp hn
      rw [write, hop] at h
      exact (((writeMethod_leaves _ _ params hbody).unlessRefused w text w' h).2 hw').1
  | _ => cases hn

end Write

end RToJulia.Julia
