import RToJulia.Proofs.Translate.Backticks
import RToJulia.Proofs.Translate.Phrases

/-! # Declarations of operators

A name in backticks with one period is split into an operator and a class when a declaration
is read, and a name is split again when a declaration of a function is written. On the names
of a source the second way splits where the first one does and the operator is in the table.
So a function named like an operator for a class is written as the declaration of the
operator, and no source has such a function.
-/

namespace RToJulia

open Text Julia Node
open Julia.Writer (unlessRefused)
open Grammar (splitOperator? splitOperator?_eq_some_iff rules)

/-! ## The table of operators -/

section Table

variable {op : Bytes}

theorem operator?_of_mem {entry : String × String} (h : entry ∈ operatorTable) :
    operator? (utf8 entry.1) = some (utf8 entry.2) := by
  have hall : operatorTable.all (fun e => operator? (utf8 e.1) == some (utf8 e.2)) = true := by
    decide
  exact beq_iff_eq.mp (List.all_eq_true.mp hall entry h)

theorem operator?_eq_none (h : ∀ entry ∈ operatorTable, utf8 entry.1 ≠ op) :
    operator? op = none := by
  unfold operator?
  rw [Option.map_eq_none_iff, List.find?_eq_none]
  intro entry hentry
  simpa using h entry hentry

/-- No operator begins like a name. -/
theorem operator?_name {b : UInt8} {s : Bytes} (h : Lexer.isNameStart b = true) :
    operator? (b :: s) = none := by
  have hall : operatorTable.all (fun e => !(utf8 e.1).head?.any Lexer.isNameStart) = true := by
    decide
  refine operator?_eq_none fun entry hentry heq => ?_
  have hentry := List.all_eq_true.mp hall entry hentry
  simp [heq, h] at hentry

end Table

/-! ## Splitting names -/

section Names

variable {x : Bytes}

theorem operatorClass?_plain (h : isPlainName x = true) : operatorClass? x = none := by
  cases x with
  | nil => contradiction
  | cons b s =>
      simp only [isPlainName, Bool.and_eq_true] at h
      have hdot : (b != 0x2e) = true := by
        rw [bne_iff_ne]
        rintro rfl
        exact absurd h.1 (by decide)
      have hop : operator? (cut 0x2e (b :: s)).1 = none := by
        simp only [cut, List.takeWhile_cons, hdot, if_true]
        exact operator?_name h.1
      simp [operatorClass?, hop]

/-- Between backticks, a name is split as a declaration is, if the operator is in the table. -/
theorem operatorClass?_quoted (body : Bytes) :
    operatorClass? body =
      (splitOperator? (0x60 :: body ++ [0x60])).filter fun parts => (operator? parts.1).isSome := by
  have hquoted := backticks_iff.mpr ⟨body, rfl⟩
  rw [List.cons_append, splitOperator?, if_pos hquoted, drop_dropLast_wrap, operatorClass?]
  dsimp only
  generalize cut 0x2e body = parts
  obtain ⟨op, cls⟩ := parts
  dsimp only
  by_cases hop : (operator? op).isSome = true
  · -- The table has no empty operator, so the first part need not be checked again.
    have hne : op ≠ [] := by
      rintro rfl
      exact absurd hop (by decide)
    simp only [hop, hne, ne_eq, not_false_eq_true, decide_true, Bool.and_true]
    split
    · rw [Option.filter_some, if_pos hop]
    · rfl
  · simp only [hop, Bool.and_false, Bool.false_eq_true, if_false]
    split
    · rw [Option.filter_some, if_neg hop]
    · rfl

/-- The two ways to split a name of a source. -/
theorem IsName.operatorClass?_unquote (h : IsName x) :
    operatorClass? (unquote x) =
      (splitOperator? x).filter fun parts => (operator? parts.1).isSome := by
  rcases h with hplain | ⟨body, -, rfl⟩
  · rw [unquote_plain hplain, operatorClass?_plain hplain, splitOperator?_plain hplain]
    rfl
  · rw [unquote_quoted, operatorClass?_quoted]

end Names

/-! ## Writing declarations -/

section Writing

variable {name op cls : Bytes} (o : Options) (level : Nat) (params : List Bytes) (body : Body)

/-- A function named like an operator for a class is written as the declaration of the operator. -/
theorem write_split (h : splitOperator? name = some (op, cls)) :
    write o (.function name params body) level = write o (.operator op cls params body) level := by
  have hname := (splitOperator?_eq_some_iff.mp h).1
  have hquoted : inBackticks name = name := by
    rw [hname, ← List.cons_append, inBackticks, unquote_quoted]
  rw [← write_declared, hquoted, declared, h]

/-- Writing a declaration of `op` for `cls`: as a method where `op` is in the table of operators,
and as a plain function where it is not. -/
structure WritesDeclaration (op cls : Bytes) (m : Writer Bytes) : Prop where
  method : ∀ entry ∈ operatorTable, utf8 entry.1 = op →
    m = unlessRefused (writeMethod o level (utf8 entry.2) cls params (writeBody o body level))
  plain : (∀ entry ∈ operatorTable, utf8 entry.1 ≠ op) →
    m = unlessRefused (writeFunction o level (op ++ "." ++ cls) params (writeBody o body level))

theorem write_operator (op cls : Bytes) :
    WritesDeclaration o level params body op cls (write o (.operator op cls params body) level) where
  method entry h hop := by rw [← hop, write, operator?_of_mem h]
  plain h := by rw [write, operator?_eq_none h]

/-- Statements that are written alike are the same to a session. -/
theorem generate_congr {n m : Node} (h : write o n 0 = write o m 0) (s : Session)
    (before after : List Node) :
    s.generate o (before ++ n :: after) = s.generate o (before ++ m :: after) := by
  have hprogram : writeProgram o (before ++ n :: after) = writeProgram o (before ++ m :: after) := by
    simp only [writeProgram, List.mapM_append, List.mapM_cons, h]
  rw [Session.generate, Session.generate, hprogram]

end Writing

/-! ## Functions of a source -/

/-- No function of the tree is named like an operator of the table for a class. -/
def NamesNoOperator (root : Node) : Prop :=
  ∀ name params body, Occurs root (.function name params body) →
    operatorClass? (unquote name) = none

theorem namesNoOperator_of_part {ok : Bytes → Prop} {root : Node} (hpart : isPart root = true)
    (hmeets : (spelling ok).Meets root) : NamesNoOperator root := by
  intro name params body h
  have hname : IsName name := (h.meets hmeets).1.1
  have hsplit : splitOperator? name = none := by
    have hfunction := h.isPart hpart
    simp only [isPart, isStatement, isExpr, isNamedExpr, Bool.or_false, Bool.and_eq_true] at hfunction
    exact Option.isNone_iff_eq_none.mp hfunction.1
  rw [hname.operatorClass?_unquote, hsplit]
  rfl

theorem tokens_spelling {source : Bytes} {ts : List Token} (h : ∀ t ∈ ts, t ∈ tokens source) :
    ∀ t ∈ ts, (spelling fun _ => True).Carried t :=
  fun t ht => tokens_carry_spelling (fun _ _ _ _ _ => trivial) t (h t ht)

/-- A function whose name splits into an operator and a class and the declaration of that operator
are written alike in every state, as a method exactly where the operator is in the table. What is
read from a source, whole or in parts, has no function that would be written as a method. -/
theorem operator_declarations_agree :
    (∀ (o : Options) (level : Nat) (params : List Bytes) (body : Body) (name op cls : Bytes),
      splitOperator? name = some (op, cls) →
        (∀ w : Work, (write o (.function name params body) level).run w =
          (write o (.operator op cls params body) level).run w) ∧
        (∀ (s : Session) (before after : List Node),
          s.generate o (before ++ .function name params body :: after) =
            s.generate o (before ++ .operator op cls params body :: after)) ∧
        WritesDeclaration o level params body op cls (write o (.function name params body) level) ∧
        WritesDeclaration o level params body op cls
          (write o (.operator op cls params body) level)) ∧
    ∀ source : Bytes,
      (∀ ss, parseSource source = .ok ss → NamesNoOperator (.program ss)) ∧
      ∀ depth ts s rest, (∀ t ∈ ts, t ∈ tokens source) →
        (rules depth).statement ts = .done s rest → NamesNoOperator s := by
  refine ⟨fun o level params body name op cls h => ?_, fun source => ⟨fun ss h => ?_, ?_⟩⟩
  · have hsame := write_split o level params body h
    have hform := write_operator o level params body op cls
    refine ⟨fun w => by rw [hsame], ?_, by rwa [hsame], hform⟩
    exact generate_congr o (write_split o 0 params body h)
  · have hread := parse_sound (tokens_spelling fun _ ht => ht) h
    exact namesNoOperator_of_part hread.1 hread.2
  · intro depth ts s rest hts h
    have hread := (Grammar.rules_sound _ depth).statement ts (tokens_spelling hts)
    rw [h] at hread
    exact namesNoOperator_of_part (isPart_of_isStatement hread.1.1) hread.1.2

/-- `%%` is in the table. Behind `+.` the class is missing, so this is a function like any other. -/
theorem operator_declarations_agree_remainder :
    splitOperator? "`%%.money`" = some (utf8 "%%", utf8 "money") ∧
      write {} (.function "`%%.money`" ["a"] (some [])) 0 =
        unlessRefused (writeMethod {} 0 "%" "money" ["a"] (writeBody {} (some []) 0)) ∧
      parseSource "`+.` <- function(a) a" =
        .ok [.function "`+.`" ["a"] (some [.exprStmt (.var "a")])] ∧
      operatorClass? (unquote "`+.`") = none := by
  have hsplit : splitOperator? "`%%.money`" = some (utf8 "%%", utf8 "money") := rfl
  have hparse : parseSource "`+.` <- function(a) a" =
      .ok [.function "`+.`" ["a"] (some [.exprStmt (.var "a")])] := rfl
  obtain ⟨hwrite, hread⟩ := operator_declarations_agree
  refine ⟨hsplit, ?_, hparse, ?_⟩
  · exact (hwrite {} 0 ["a"] (some []) _ _ _ hsplit).2.2.1.method ("%%", "%") (by decide) rfl
  · exact (hread _).1 _ hparse _ _ _ (.child .root List.mem_cons_self)

end RToJulia
