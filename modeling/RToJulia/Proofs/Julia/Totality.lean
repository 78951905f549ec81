import RToJulia.Proofs.Julia.Grouping

/-! # Every well-formed program is written

Writing a well-formed program refuses no node and misses no body. It ends unless
the indentation of one of its levels is out of range.
-/

namespace RToJulia.Node

mutual

/-- The levels of indentation inside a statement. A `while` loop may add one for the `let`
around it. -/
def nesting : Node → Nat
  | ifElse _ yes no => max (nestingBody yes) (nestingBody no)
  | whileLoop _ body => nestingBody body + 1
  | forLoop _ _ _ body | function _ _ body | operator _ _ _ body => nestingBody body
  | _ => 0

def nestingAll : List Node → Nat
  | [] => 0
  | n :: ns => max (nesting n) (nestingAll ns)

def nestingBody : Option (List Node) → Nat
  | none => 0
  | some ss => nestingAll ss + 1

end

end RToJulia.Node

namespace RToJulia.Julia

open Text Writer Node

variable {o : Options} {depth : Nat}

def Fits (o : Options) (depth : Nat) : Prop :=
  ∀ level : Nat, level ≤ depth → 0 ≤ o.indentWidth * level ∧ o.indentWidth * level ≤ maxMargin

theorem fits_iff (hw : 0 ≤ o.indentWidth) : Fits o depth ↔ o.indentWidth * depth ≤ maxMargin := by
  constructor
  · intro h
    exact (h depth (Nat.le_refl depth)).2
  · intro h level hl
    have hmul : o.indentWidth * level ≤ o.indentWidth * depth :=
      Int.mul_le_mul_of_nonneg_left (Int.ofNat_le.mpr hl) hw
    exact ⟨Int.mul_nonneg hw (Int.natCast_nonneg level), Int.le_trans hmul h⟩

theorem margin_writes {level : Nat} (hl : level ≤ depth) :
    Writes (fun _ => True) (¬ Fits o depth) (margin o level) := by
  unfold margin
  dsimp only
  split
  · rename_i hwide
    refine fun w _ => .inr ⟨rfl, fun hfits => ?_⟩
    obtain ⟨hlow, hhigh⟩ := hfits level hl
    have hexact : marginWidth o level = o.indentWidth * level := by
      have hpowers : Nat.pow 2 48 = 281474976710656 ∧ Nat.pow 2 64 = 18446744073709551616 := by decide
      unfold maxMargin at hhigh
      exact Int.bmod_eq_of_le (by omega) (by omega)
    simp only [hexact, Bool.or_eq_true, decide_eq_true_eq] at hwide
    omega
  · exact .pure trivial

/-! ## Names bound around a loop -/

mutual

theorem assigned_ok : ∀ n : Node, isStatement n = true ∨ isExpr n = true →
    ∃ names, assigned n = .ok names
  | .assign x value, h => by
      have he : isExpr value = true := by simpa [isStatement, isExpr] using h
      obtain ⟨names, hnames⟩ := assigned_ok value (.inr he)
      exact ⟨x :: names, by rw [assigned, hnames]; rfl⟩
  | .exprStmt e, h => by
      have he : isExpr e = true := by
        simp only [isStatement, isExpr, Bool.and_eq_true, Bool.false_eq_true, or_false] at h
        exact h.1
      rw [assigned]
      exact assigned_ok e (.inr he)
  | .ifElse cond yes no, h => by
      simp only [isStatement, isExpr, Bool.and_eq_true, Bool.false_eq_true, or_false] at h
      obtain ⟨cs, hcs⟩ := assigned_ok cond (.inr h.1.1)
      obtain ⟨ys, hys⟩ := assignedBody_ok yes h.1.2
      obtain ⟨ns, hns⟩ := assignedElse_ok no h.2
      exact ⟨cs ++ ys ++ ns, by rw [assigned, hcs, hys, hns]; rfl⟩
  | .whileLoop cond body, h => by
      simp only [isStatement, isExpr, Bool.and_eq_true, Bool.false_eq_true, or_false] at h
      obtain ⟨cs, hcs⟩ := assigned_ok cond (.inr h.1)
      obtain ⟨bs, hbs⟩ := assignedBody_ok body h.2
      exact ⟨cs ++ bs, by rw [assigned, hcs, hbs]; rfl⟩
  | .forLoop _ start stop body, h => by
      simp only [isStatement, isExpr, Bool.and_eq_true, Bool.or_eq_true, Bool.false_eq_true,
        or_false] at h
      have hstart : ∃ names, assigned start = .ok names := by
        rcases h.1.1 with hs | hs
        · exact assigned_ok start (.inr hs)
        · rw [eq_gap_of_isGap hs.1]
          exact ⟨[], by simp [assigned, pure, Except.pure]⟩
      obtain ⟨as, has⟩ := hstart
      obtain ⟨es, hes⟩ := assigned_ok stop (.inr h.1.2)
      obtain ⟨bs, hbs⟩ := assignedBody_ok body h.2
      exact ⟨as ++ es ++ bs, by rw [assigned, has, hes, hbs]; rfl⟩
  | .gap, h | .program _, h | .block _, h => by simp [isStatement, isExpr] at h
  | .assignIndex .., _ | .function .., _ | .operator .., _ | .ret _, _ | .call .., _
  | .named .., _ | .binary .., _ | .unary .., _ | .var _, _ | .int _, _ | .float _, _
  | .string _, _ | .bool _, _ | .index .., _ | .field .., _ | .predicate .., _ =>
      ⟨[], by simp [assigned, pure, Except.pure]⟩

theorem assignedAll_ok : ∀ ss : List Node, areStatements ss = true →
    ∃ names, assignedAll ss = .ok names
  | [], _ => ⟨[], by simp [assignedAll, pure, Except.pure]⟩
  | s :: ss, h => by
      simp only [areStatements, Bool.and_eq_true] at h
      obtain ⟨ns, hns⟩ := assigned_ok s (.inl h.1)
      obtain ⟨ms, hms⟩ := assignedAll_ok ss h.2
      exact ⟨ns ++ ms, by rw [assignedAll, hns, hms]; rfl⟩

theorem assignedBody_ok : ∀ body : Option (List Node), isBody body = true →
    ∃ names, assignedBody body = .ok names
  | none, h => by simp [isBody] at h
  | some ss, h => by
      rw [assignedBody]
      exact assignedAll_ok ss h

theorem assignedElse_ok : ∀ body : Option (List Node), isElse body = true →
    ∃ names, assignedElse body = .ok names
  | none, _ => ⟨[], by simp [assignedElse, pure, Except.pure]⟩
  | some ss, h => by
      rw [assignedElse]
      exact assignedAll_ok ss h

end

theorem loopBindings_writes {short : Prop} {body : Option (List Node)} (cond : Node)
    (h : isBody body = true) :
    Writes (fun _ => True) short (loopBindings cond body : Writer (List Bytes)) := by
  obtain ⟨names, hnames⟩ := assignedBody_ok body h
  intro w hw
  refine .inl ⟨firsts ((names ++ comparedVar cond).map unquote), w, ?_, hw, trivial⟩
  have hbind : loopBindings cond body = .ok (firsts ((names ++ comparedVar cond).map unquote)) := by
    rw [loopBindings, hnames]
    rfl
  rw [hbind]
  rfl

/-! ## Statements -/

section Frames

variable {cond body : Writer Bytes} {level : Nat}

theorem writeWhile_writes (hl : level ≤ depth) (hc : Writes (fun _ => True) (¬ Fits o depth) cond)
    (hb : Writes (fun _ => True) (¬ Fits o depth) body) :
    Writes (fun _ => True) (¬ Fits o depth) (writeWhile o level cond body) :=
  .bind hc fun _ _ => .bind hb fun _ _ => .bind (margin_writes hl) fun _ _ => .pure trivial

theorem writeLet_writes (names : List Bytes) (hl : level + 1 ≤ depth)
    (hb : Writes (fun _ => True) (¬ Fits o depth) body) :
    Writes (fun _ => True) (¬ Fits o depth) (writeLet o level names body) :=
  .bind (margin_writes hl) fun _ _ => .bind hb fun _ _ =>
    .bind (margin_writes (by omega)) fun _ _ => .pure trivial

theorem writeMethod_writes (op cls : Bytes) (params : List Bytes) (hl : level + 1 ≤ depth)
    (hb : Writes (fun _ => True) (¬ Fits o depth) body) :
    Writes (fun _ => True) (¬ Fits o depth) (writeMethod o level op cls params body) :=
  .bind (.useRecord _) fun _ _ => .bind (margin_writes hl) fun _ _ => .bind hb fun _ _ =>
    .bind (margin_writes (by omega)) fun _ _ => .pure trivial

theorem writeFunction_writes (x : Bytes) (params : List Bytes) (hl : level ≤ depth)
    (hb : Writes (fun _ => True) (¬ Fits o depth) body) :
    Writes (fun _ => True) (¬ Fits o depth) (writeFunction o level x params body) :=
  .bind hb fun _ _ => .bind (margin_writes hl) fun _ _ => .pure trivial

theorem bodyLine_writes (text : Bytes) (hl : level ≤ depth) :
    Writes (fun _ => True) (¬ Fits o depth) (bodyLine o level text) := by
  unfold bodyLine
  split
  · exact .pure trivial
  · exact .bind (margin_writes hl) fun _ _ => .pure trivial

end Frames

/-- Writing an expression needs no indentation. Anything may pass for a name here. -/
theorem write_expr_any {short : Prop} {e : Node} (h : isExpr e = true) (level : Nat) :
    Writes (fun _ => True) short (write o e level) := by
  have hfree : (texts fun _ => True).Free :=
    { name := fun _ => ⟨trivial, .name trivial⟩
      operator := fun _ => .name trivial
      sign := fun _ => .name trivial
      digits := fun _ => .name trivial
      real := fun _ => .name trivial
      text := fun _ => .name trivial }
  have hwrites := write_expr o (fun _ _ => trivial) e h (hfree.meets e) (fun _ _ => .name trivial) level
  exact hwrites.mono (fun _ _ => trivial) False.elim

theorem nestingBody_pos {body : Option (List Node)} (h : isBody body = true) :
    1 ≤ nestingBody body := by
  cases body with
  | none => simp [isBody] at h
  | some ss => simp [nestingBody]

mutual

theorem write_statement : ∀ n : Node, isStatement n = true → ∀ level, level + nesting n ≤ depth →
    Writes (fun _ => True) (¬ Fits o depth) (write o n level)
  | .assign x value, h, level, _ =>
      write_expr_any (by simpa only [isStatement] using h) level
  | .assignIndex target i value, h, level, _ =>
      write_expr_any (by simpa only [isStatement] using h) level
  | .exprStmt e, h, level, _ => by
      simp only [isStatement, Bool.and_eq_true] at h
      rw [write]
      exact .unlessRefused (write_expr_any h.1 level)
  | .ifElse cond yes no, h, level, hl => by
      simp only [isStatement, Bool.and_eq_true] at h
      simp only [nesting] at hl
      rw [write]
      refine .unlessRefused (.bind (write_expr_any h.1.1 level) fun _ _ => ?_)
      refine .bind (write_body yes h.1.2 level (by omega)) fun _ _ => ?_
      refine .bind (write_else no h.2 level (by omega)) fun _ _ => ?_
      exact .bind (margin_writes (by omega)) fun _ _ => .pure trivial
  | .whileLoop cond body, h, level, hl => by
      simp only [isStatement, Bool.and_eq_true] at h
      simp only [nesting] at hl
      -- A `let` around the loop takes a level of its own, which the nesting counts.
      have hpos := nestingBody_pos h.2
      rw [write]
      refine .unlessRefused (.bind (loopBindings_writes cond h.2) fun names _ => ?_)
      split
      · exact writeWhile_writes (by omega) (write_expr_any h.1 level)
          (write_body body h.2 level (by omega))
      · refine writeLet_writes names (by omega) (writeWhile_writes (by omega) ?_ ?_)
        · exact write_expr_any h.1 (level + 1)
        · exact write_body body h.2 (level + 1) (by omega)
  | .forLoop x start stop body, h, level, hl => by
      simp only [isStatement, Bool.and_eq_true, Bool.or_eq_true] at h
      simp only [nesting] at hl
      have hstop : Writes (fun _ => True) (¬ Fits o depth) (write o stop level) :=
        write_expr_any h.1.2 level
      have hrange : Writes (fun _ => True) (¬ Fits o depth)
          (writeRange start (write o start level) (write o stop level)) := by
        unfold writeRange
        split
        · exact hstop
        · rename_i hgap
          have hs : isExpr start = true := by
            rcases h.1.1 with hs | hs
            · exact hs
            · exact (hgap (eq_gap_of_isGap hs.1)).elim
          exact .bind (write_expr_any hs level) fun _ _ => .bind hstop fun _ _ => .pure trivial
      rw [write]
      refine .unlessRefused (.bind hrange fun _ _ => ?_)
      refine .bind (write_body body h.2 level hl) fun _ _ => ?_
      exact .bind (margin_writes (by omega)) fun _ _ => .pure trivial
  | .function x params body, h, level, hl => by
      simp only [isStatement, Bool.and_eq_true] at h
      simp only [nesting] at hl
      have hpos := nestingBody_pos h.2
      have hbody := write_body body h.2 level hl
      rw [write]
      refine .unlessRefused ?_
      split
      · exact writeMethod_writes _ _ params (by omega) hbody
      · exact writeFunction_writes _ params (by omega) hbody
  | .operator op cls params body, h, level, hl => by
      simp only [isStatement, Bool.and_eq_true] at h
      simp only [nesting] at hl
      have hpos := nestingBody_pos h.2
      have hbody := write_body body h.2 level hl
      rw [write]
      refine .unlessRefused ?_
      split
      · exact writeMethod_writes _ _ params (by omega) hbody
      · exact writeFunction_writes _ params (by omega) hbody
  | .ret value, h, level, _ => by
      simp only [isStatement, Bool.or_eq_true] at h
      rw [write]
      refine .unlessRefused ?_
      unfold writeReturn
      split
      · exact .pure trivial
      · rename_i hgap
        have hv : isExpr value = true := by
          rcases h with hv | hv
          · exact hv
          · exact (hgap (eq_gap_of_isGap hv)).elim
        exact .bind (write_expr_any hv level) fun _ _ => .pure trivial
  | .gap, h, _, _ | .program _, h, _, _ | .block _, h, _, _ | .call .., h, _, _
  | .named .., h, _, _ | .binary .., h, _, _ | .unary .., h, _, _ | .var _, h, _, _
  | .int _, h, _, _ | .float _, h, _, _ | .string _, h, _, _ | .bool _, h, _, _
  | .index .., h, _, _ | .field .., h, _, _ | .predicate .., h, _, _ => by
      simp [isStatement] at h

theorem write_statements : ∀ ss : List Node, areStatements ss = true → ∀ level,
    level + nestingAll ss ≤ depth → Writes (fun _ => True) (¬ Fits o depth) (writeStatements o ss level)
  | [], _, level, _ => by
      rw [writeStatements]
      exact .pure trivial
  | s :: ss, h, level, hl => by
      simp only [areStatements, Bool.and_eq_true] at h
      simp only [nestingAll] at hl
      rw [writeStatements]
      refine .bind (write_statement s h.1 level (by omega)) fun text _ => ?_
      refine .bind (bodyLine_writes text (by omega)) fun _ _ => ?_
      exact .bind (write_statements ss h.2 level (by omega)) fun _ _ => .pure trivial

theorem write_body : ∀ body : Option (List Node), isBody body = true → ∀ level,
    level + nestingBody body ≤ depth → Writes (fun _ => True) (¬ Fits o depth) (writeBody o body level)
  | none, h, _, _ => by simp [isBody] at h
  | some ss, h, level, hl => by
      simp only [nestingBody] at hl
      rw [writeBody]
      exact .bind (write_statements ss h (level + 1) (by omega)) fun _ _ => .pure trivial

theorem write_elseIf : ∀ n : Node, isStatement n = true → ∀ level, level + nesting n ≤ depth →
    ∀ m ∈ writeElseIf o n level, Writes (fun _ => True) (¬ Fits o depth) m
  | .ifElse cond yes no, h, level, hl => by
      simp only [isStatement, Bool.and_eq_true] at h
      simp only [nesting] at hl
      have hyes := write_body yes h.1.2 level (by omega)
      have hno := write_else no h.2 level (by omega)
      rw [writeElseIf]
      rintro m ⟨⟩
      refine .bind (margin_writes (by omega)) fun _ _ => ?_
      refine .bind (write_expr_any h.1.1 level) fun _ _ => ?_
      exact .bind hyes fun _ _ => .bind hno fun _ _ => .pure trivial
  | .assign .., _, _, _ | .assignIndex .., _, _, _ | .exprStmt _, _, _, _
  | .whileLoop .., _, _, _ | .forLoop .., _, _, _ | .function .., _, _, _
  | .operator .., _, _, _ | .ret _, _, _, _ | .gap, _, _, _ | .program _, _, _, _
  | .block _, _, _, _ | .call .., _, _, _ | .named .., _, _, _ | .binary .., _, _, _
  | .unary .., _, _, _ | .var _, _, _, _ | .int _, _, _, _ | .float _, _, _, _
  | .string _, _, _, _ | .bool _, _, _, _ | .index .., _, _, _ | .field .., _, _, _
  | .predicate .., _, _, _ => by
      simp [writeElseIf]

theorem write_chain : ∀ ss : List Node, areStatements ss = true → ∀ level,
    level + nestingAll ss ≤ depth → ∀ m ∈ writeChain o ss level, Writes (fun _ => True) (¬ Fits o depth) m
  | [n], h, level, hl => by
      simp only [areStatements, Bool.and_true] at h
      simp only [nestingAll] at hl
      rw [writeChain]
      exact write_elseIf n h level (by omega)
  | [], _, _, _ | _ :: _ :: _, _, _, _ => by simp [writeChain]

theorem write_else : ∀ body : Option (List Node), isElse body = true → ∀ level,
    level + nestingBody body ≤ depth → Writes (fun _ => True) (¬ Fits o depth) (writeElse o body level)
  | none, _, level, _ => by
      rw [writeElse]
      exact .pure trivial
  | some ss, h, level, hl => by
      simp only [nestingBody] at hl
      have hchain := write_chain ss h level (by omega)
      have hlines := write_statements ss h (level + 1) (by omega)
      rw [writeElse]
      cases hc : writeChain o ss level with
      | some m => exact hchain m hc
      | none =>
          exact .bind (margin_writes (by omega)) fun _ _ => .bind hlines fun _ _ => .pure trivial

end

end RToJulia.Julia
