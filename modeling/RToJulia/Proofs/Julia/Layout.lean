import RToJulia.Proofs.Julia.Bindings
import RToJulia.Proofs.Julia.History
import RToJulia.Proofs.Julia.Lines

/-! # The lines of a program

A statement is written as lines laid in blocks. Which lines these are depends neither on the
width of an indentation nor on the level of the statement: both only decide how many spaces
stand in front of a line, and whether they can be written at all.
-/

namespace RToJulia.Julia

open Text Writer Node

/-! ## Writers under any indentation -/

section Judgments

variable {α β : Type} (o : Options)

/-- One value in `P`, whatever the width of an indentation and the level. -/
def Steady (P : α → Prop) (m : Options → Nat → Writer α) : Prop :=
  ∀ w : Work, w.unsupported = none → ∃ a w', P a ∧ w'.unsupported = none ∧
    ∀ width level, m { o with indentWidth := width } level w = .ok (a, w')

/-- Lines in `Q`, the same for every width of an indentation and every level: where there is a
value, it shows these lines in the way of `R`. -/
def Lays (Q : List Line → Prop) (R : Options → Nat → List Line → α → Prop)
    (m : Options → Nat → Writer α) : Prop :=
  ∀ w : Work, w.unsupported = none → ∃ lines w', Q lines ∧ w'.unsupported = none ∧
    ∀ width level a w₁, m { o with indentWidth := width } level w = .ok (a, w₁) →
      w₁ = w' ∧ R { o with indentWidth := width } level lines a

def ShownBody (o : Options) (level : Nat) (lines : List Line) (text : Bytes) : Prop :=
  Stacked o level (deeper lines) (hung [text])

def ShownParts (o : Options) (level : Nat) (lines : List Line) (parts : List Bytes) : Prop :=
  Stacked o level lines (hung parts)

def ShownAll (o : Options) (level : Nat) (lines : List Line) (parts : List Bytes) : Prop :=
  Stacked o level lines (hung parts) ∧ ∀ x ∈ parts, x ≠ []

variable {o} {P : α → Prop} {Q : List Line → Prop} {R : Options → Nat → List Line → β → Prop}

theorem unlessRefused_run {m : Writer Bytes} {w : Work} (hw : w.unsupported = none) :
    unlessRefused m w = m w := by
  change (if w.unsupported.isSome then pure [] else m) w = m w
  rw [hw]
  rfl

theorem steady_of_writes {m : Options → Nat → Writer α} {m₀ : Writer α} (h : Writes P False m₀)
    (heq : ∀ width level, m { o with indentWidth := width } level = m₀) : Steady o P m := by
  intro w hw
  rcases h w hw with ⟨a, w', hrun, hw', ha⟩ | ⟨-, hfalse⟩
  · exact ⟨a, w', ha, hw', fun width level => by rw [heq, hrun]⟩
  · exact hfalse.elim

theorem Lays.bind {m : Options → Nat → Writer α} {f : α → Options → Nat → Writer β}
    (hm : Steady o P m) (hf : ∀ a, P a → Lays o Q R (f a)) :
    Lays o Q R fun o level => m o level >>= fun a => f a o level := by
  intro w hw
  obtain ⟨a, w', ha, hw', hrun⟩ := hm w hw
  obtain ⟨lines, w₂, hlines, hw₂, hshows⟩ := hf a ha w' hw'
  refine ⟨lines, w₂, hlines, hw₂, fun width level b w₁ hb => ?_⟩
  exact hshows width level b w₁ ((bind_run_ok (hrun width level)).symm.trans hb)

theorem Lays.unlessRefused {R : Options → Nat → List Line → Bytes → Prop}
    {m : Options → Nat → Writer Bytes} (h : Lays o Q R m) :
    Lays o Q R fun o level => unlessRefused (m o level) := by
  intro w hw
  obtain ⟨lines, w', hlines, hw', hshows⟩ := h w hw
  refine ⟨lines, w', hlines, hw', fun width level a w₁ hrun => ?_⟩
  exact hshows width level a w₁ ((unlessRefused_run hw).symm.trans hrun)

/-- What is written without an indentation is one line. -/
theorem Lays.line {P : Bytes → Prop} {m : Options → Nat → Writer Bytes} (h : Steady o P m) :
    Lays o (Laid P) Shown m := by
  intro w hw
  obtain ⟨t, w', ht, hw', hrun⟩ := h w hw
  refine ⟨[⟨0, t⟩], w', .line ht .nil, hw', fun width level a w₁ ha => ?_⟩
  rw [hrun width level] at ha
  cases ha
  exact ⟨rfl, shown_line t⟩

end Judgments

/-! ## Frames of statements -/

section Frames

variable {o : Options} {P : Bytes → Prop} {T : Bytes → Prop} {lead : UInt8 → Prop} {level : Nat}

theorem shownParts_nil : ShownParts o level [] [] :=
  .nil

theorem shown_block {head text spaces : Bytes} {parts : List Bytes} {body branches : List Line}
    (hne : head ≠ []) (hbody : ShownBody o level body text)
    (hbranches : ShownParts o level branches parts) (hindent : margin o level = pure spaces) :
    Shown o level (⟨0, head⟩ :: (deeper body ++ (branches ++ [⟨0, "end"⟩])))
      (joinLines ([head, text] ++ parts ++ [spaces ++ "end"])) := by
  have hend : Stacked o level [⟨0, "end"⟩] (hung [spaces ++ "end"]) :=
    stacked_line hindent (by decide)
  have hparts : hung ([text] ++ parts ++ [spaces ++ "end"]) =
      hung [text] ++ (hung parts ++ hung [spaces ++ "end"]) := by
    rw [hung_append, hung_append, List.append_assoc]
  have hall : Stacked o level (deeper body ++ (branches ++ [⟨0, "end"⟩]))
      (hung ([text] ++ parts ++ [spaces ++ "end"])) := by
    rw [hparts]
    exact hbody.append (hbranches.append hend)
  exact shown_joinLines hne hall

theorem shown_branch {head text spaces : Bytes} {parts : List Bytes} {body branches : List Line}
    (hne : head ≠ []) (hindent : margin o level = pure spaces) (hbody : ShownBody o level body text)
    (hbranches : ShownParts o level branches parts) :
    ShownParts o level (⟨0, head⟩ :: (deeper body ++ branches))
      ([spaces ++ head, text] ++ parts) := by
  have hparts : hung ([spaces ++ head, text] ++ parts) =
      hung [spaces ++ head] ++ (hung [text] ++ hung parts) := by
    rw [← hung_append, ← hung_append]
    rfl
  unfold ShownParts
  rw [hparts]
  exact (stacked_line hindent hne).append (hbody.append hbranches)

/-- A line, a body one level deeper and the end of it. -/
theorem Lays.frame {head : Bytes} {body : Options → Nat → Writer Bytes} (hP : ∀ t, P t → t ≠ [])
    (hend : P "end") (hhead : P head) (hbody : Lays o (Laid P) ShownBody body) :
    Lays o (Laid P) Shown fun o level => do
      let b ← body o level
      return joinLines [head, b, (← margin o level) ++ "end"] := by
  intro w hw
  obtain ⟨ls, w', hls, hw', hshows⟩ := hbody w hw
  refine ⟨_, w', hls.close hhead (closing_nil hend), hw', fun width level text w₁ hrun => ?_⟩
  obtain ⟨b, w₂, hb, hrest⟩ := bind_run_cases hrun
  obtain ⟨rfl, hshown⟩ := hshows _ _ _ _ hb
  obtain ⟨spaces, hindent, hpure⟩ := margin_bind hrest
  cases hpure
  exact ⟨rfl, shown_block (hP head hhead) hshown shownParts_nil hindent⟩

/-- A line, a body one level deeper, further branches and the end of them all. -/
theorem Lays.branched {head : Bytes} {body : Options → Nat → Writer Bytes}
    {branches : Options → Nat → Writer (List Bytes)} (hP : ∀ t, P t → t ≠ []) (hhead : P head)
    (hbody : Lays o (Laid P) ShownBody body) (hbranches : Lays o (Closing P) ShownParts branches) :
    Lays o (Laid P) Shown fun o level => do
      let y ← body o level
      let n ← branches o level
      return joinLines ([head, y] ++ n ++ [(← margin o level) ++ "end"]) := by
  intro w hw
  obtain ⟨ls, w', hls, hw', hshows⟩ := hbody w hw
  obtain ⟨ms, w'', hms, hw'', hparts⟩ := hbranches w' hw'
  refine ⟨_, w'', hls.close hhead hms, hw'', fun width level text w₁ hrun => ?_⟩
  obtain ⟨y, w₂, hy, hrun₁⟩ := bind_run_cases hrun
  obtain ⟨rfl, hshown⟩ := hshows _ _ _ _ hy
  obtain ⟨n, w₃, hn, hrun₂⟩ := bind_run_cases hrun₁
  obtain ⟨rfl, hshown'⟩ := hparts _ _ _ _ hn
  obtain ⟨spaces, hindent, hpure⟩ := margin_bind hrun₂
  cases hpure
  exact ⟨rfl, shown_block (hP head hhead) hshown hshown' hindent⟩

theorem bodyLine_run {text : Bytes} {parts : List Bytes} {w w' : Work} (ht : text ≠ [])
    (h : bodyLine o level text w = .ok (parts, w')) :
    w' = w ∧ ∃ spaces, margin o level = pure spaces ∧ parts = [spaces ++ text] := by
  unfold bodyLine at h
  rw [if_neg ht] at h
  obtain ⟨spaces, hindent, hrun⟩ := margin_bind h
  cases hrun
  exact ⟨rfl, spaces, hindent, rfl⟩

/-- An `else` and a body one level deeper. -/
theorem Lays.plainElse {statements : Options → Nat → Writer (List Bytes)} (hT : Composes T)
    (hlead : ∀ b, b ≠ 0x20 → lead b)
    (h : Lays o (Laid (Phrase T lead)) ShownAll statements) :
    Lays o (Closing (Phrase T lead)) ShownParts fun o level => do
      let m ← margin o level
      let lines ← statements o (level + 1)
      return [m ++ "else", List.intercalate (utf8 "\n") lines] := by
  have hhead : Phrase T lead "else" := phrase_of_opens hT hlead (by decide)
  have hend : Phrase T lead "end" := phrase_of_opens hT hlead (by decide)
  intro w hw
  obtain ⟨ls, w₁, hls, hw₁, hshows⟩ := h w hw
  refine ⟨_, w₁, (closing_nil hend).branch hhead (by decide) hls, hw₁,
    fun width level parts w' hrun => ?_⟩
  obtain ⟨spaces, hindent, hrun₁⟩ := margin_bind hrun
  obtain ⟨lines, w₃, hlines, hpure⟩ := bind_run_cases hrun₁
  obtain ⟨rfl, hstacked, hfull⟩ := hshows _ _ _ _ hlines
  cases hpure
  refine ⟨rfl, shown_branch hhead.ne_nil hindent ?_ shownParts_nil⟩
  unfold ShownBody
  rw [hung_intercalate hfull]
  exact hstacked.deeper

theorem Lays.function {x : Bytes} {params : List Bytes} {body : Options → Nat → Writer Bytes}
    (hT : Composes T) (hlead : ∀ b, b ≠ 0x20 → lead b) (hx : T x) (hparams : ∀ p ∈ params, T p)
    (hbody : Lays o (Laid (Phrase T lead)) ShownBody body) :
    Lays o (Laid (Phrase T lead)) Shown fun o level =>
      writeFunction o level x params (body o level) := by
  have hhead : Phrase T lead ("function " ++ x ++ "(" ++ commaList params ++ ")") :=
    ((((phrase_of_opens hT hlead (by decide)).append hT hx).append hT (hT.ink (by decide))).append hT
      (commaList_text hT hparams)).append hT (hT.ink (by decide))
  exact Lays.frame (fun _ => Phrase.ne_nil) (phrase_of_opens hT hlead (by decide)) hhead hbody

/-- A `let` around the lines of a loop. -/
theorem Lays.let_frame {names : List Bytes} {loop : Options → Nat → Writer Bytes}
    (hP : ∀ t, P t → t ≠ []) (hend : P "end")
    (hhead : P ("let " ++ commaList (names.map fun n => n ++ " = " ++ n)))
    (hloop : Lays o (Laid P) Shown loop) :
    Lays o (Laid P) Shown fun o level => writeLet o level names (loop o (level + 1)) := by
  intro w hw
  obtain ⟨ls, w', hls, hw', hshows⟩ := hloop w hw
  refine ⟨_, w', hls.close hhead (closing_nil hend), hw', fun width level text w₁ hrun => ?_⟩
  obtain ⟨inner, hinner, hrest⟩ := margin_bind hrun
  obtain ⟨b, w₃, hb, hclose⟩ := bind_run_cases hrest
  obtain ⟨rfl, hshown⟩ := hshows _ _ _ _ hb
  obtain ⟨spaces, hindent, hpure⟩ := margin_bind hclose
  cases hpure
  have hbody : ShownBody { o with indentWidth := width } level ls (inner ++ b) :=
    (hshown.stacked hinner (hshown.ne_nil hls hP)).deeper
  exact ⟨rfl, shown_block (hP _ hhead) hbody shownParts_nil hindent⟩

/-! ### Methods -/

def methodLines (signature : Bytes) : List Line → List Line
  | [] => [⟨0, signature ++ " = nothing"⟩]
  | [l] =>
      if l.text.contains 0x0a then
        ⟨0, "function " ++ signature⟩ :: (deeper [l] ++ [⟨0, "end"⟩])
      else [⟨0, signature ++ " = " ++ dropLead "return " l.text⟩]
  | ls => ⟨0, "function " ++ signature⟩ :: (deeper ls ++ [⟨0, "end"⟩])

theorem eq_of_hung {s t : Bytes} (h : hung [t] = 0x0a :: s) : t = s := by
  by_cases ht : t = []
  · rw [ht] at h
    cases h
  · rw [hung_singleton ht] at h
    exact (List.cons.inj h).2

theorem dropLead_append (s t : Bytes) : dropLead s (s ++ t) = t := by
  simp [dropLead]

/-- The text of a body shows whether it is empty, one line or more. -/
theorem methodText_shown {signature text inner spaces : Bytes} {body : List Line}
    (hP : ∀ t, P t → t ≠ []) (hlaid : Laid P body) (hbody : ShownBody o level body text)
    (hinner : margin o (level + 1) = pure inner) (hindent : margin o level = pure spaces) :
    Shown o level (methodLines signature body) (methodText signature text inner spaces) := by
  have hblock : text.contains 0x0a = true →
      Shown o level (⟨0, "function " ++ signature⟩ :: (deeper body ++ [⟨0, "end"⟩]))
        (methodText signature text inner spaces) := by
    intro hbreak
    have htext : text ≠ [] := by
      rintro rfl
      cases hbreak
    have hhead : utf8 "function " ++ signature ≠ [] := List.append_ne_nil_of_left_ne_nil (by decide) _
    rw [methodText, if_neg htext, hbreak]
    exact shown_block hhead hbody shownParts_nil hindent
  cases body with
  | nil =>
      have htext : text = [] := by
        have hnone := Stacked.eq_nil hbody
        simpa [hung] using hnone
      rw [htext]
      exact shown_line _
  | cons l ls =>
      obtain ⟨sp, below, hsp, hbelow, heq⟩ := Stacked.uncons hbody
      have htext := eq_of_hung (s := sp ++ l.text ++ below) heq
      cases ls with
      | nil =>
          have hnone := Stacked.eq_nil hbelow
          -- The line of a body of one line stands at the depth whose indentation is taken off.
          have hspaces : sp = inner := by
            have hdepth : l.depth = 0 := hlaid.head_depth rfl
            rw [margin_spaces hsp, margin_spaces hinner]
            simp [hdepth]
          have hline : text = inner ++ l.text := by simp [htext, hspaces, hnone]
          have hbreak : text.contains 0x0a = l.text.contains 0x0a := by
            rw [hline, margin_spaces hinner]
            simp
          rw [methodLines]
          split
          · rename_i hlone
            exact hblock (hbreak.trans hlone)
          · rename_i hlone
            have hne : text ≠ [] := by simp [hline, hP l.text (hlaid.texts l List.mem_cons_self)]
            have hshort : methodText signature text inner spaces =
                signature ++ " = " ++ dropLead "return " l.text := by
              rw [methodText, if_neg hne, if_pos (by rw [hbreak]; simpa using hlone), hline,
                dropLead_append]
            rw [hshort]
            exact shown_line _
      | cons k ls =>
          obtain ⟨sp', below', -, -, hbelow'⟩ := Stacked.uncons hbelow
          refine hblock ?_
          rw [htext, hbelow']
          simp

theorem methodLines_laid {signature : Bytes} {body : List Line} (hT : Composes T)
    (hlead : ∀ b, b ≠ 0x20 → lead b) (hs : Phrase T lead signature)
    (hbody : Laid (Phrase T lead) body) : Laid (Phrase T lead) (methodLines signature body) := by
  have hblock : Laid (Phrase T lead)
      (⟨0, "function " ++ signature⟩ :: (deeper body ++ [⟨0, "end"⟩])) :=
    hbody.close ((phrase_of_opens hT hlead (by decide)).append hT hs.text)
      (closing_nil (phrase_of_opens hT hlead (by decide)))
  unfold methodLines
  split
  · exact .line (hs.append hT (hT.ink (by decide))) .nil
  · rename_i l
    split
    · exact hblock
    · have htext : T l.text := (hbody.texts l List.mem_cons_self).text
      exact .line ((hs.append hT (hT.ink (by decide))).append hT (hT.unreturn htext)) .nil
  · exact hblock

theorem methodSignature_phrase {op cls : Bytes} {params : List Bytes} (hT : Composes T)
    (hlead : ∀ b, b ≠ 0x20 → lead b) (hop : T op) (hparams : ∀ p ∈ params, T p) :
    Phrase T lead (methodSignature op (recordName cls) params) := by
  have hoperands : T (operands params).1 ∧ T (operands params).2 := by
    unfold operands
    split
    · exact ⟨hT.ink (by decide), hT.ink (by decide)⟩
    · exact ⟨hparams _ (by simp), hT.ink (by decide : (utf8 "e2").all isInk = true)⟩
    · exact ⟨hparams _ (by simp), hparams _ (by simp)⟩
  have hink : ∀ t : Bytes, t.all isInk = true → T t := fun t ht => hT.ink ht
  unfold methodSignature
  exact ((((((((phrase_of_opens hT hlead (by decide)).append hT hop).append hT
    (hink _ (by decide))).append hT hoperands.1).append hT (hink _ (by decide))).append hT
    (hT.record cls)).append hT (hink _ (by decide))).append hT hoperands.2).append hT
    (hink _ (by decide)) |>.append hT (hT.record cls) |>.append hT (hink _ (by decide))

theorem Lays.method {op cls : Bytes} {params : List Bytes} {body : Options → Nat → Writer Bytes}
    (hT : Composes T) (hlead : ∀ b, b ≠ 0x20 → lead b) (hop : T op) (hparams : ∀ p ∈ params, T p)
    (hbody : Lays o (Laid (Phrase T lead)) ShownBody body) :
    Lays o (Laid (Phrase T lead)) Shown fun o level =>
      writeMethod o level op cls params (body o level) := by
  have hsignature : Phrase T lead (methodSignature op (recordName cls) params) :=
    methodSignature_phrase hT hlead hop hparams
  have huse : Writes (fun _ => True) False (useRecord (recordName cls)) := .useRecord _
  intro w hw
  obtain ⟨_, w₁, hrecord, hw₁, -⟩ | ⟨-, hfalse⟩ := huse w hw
  · obtain ⟨ls, w₂, hls, hw₂, hshows⟩ := hbody w₁ hw₁
    refine ⟨_, w₂, methodLines_laid hT hlead hsignature hls, hw₂,
      fun width level text w' hrun => ?_⟩
    have hrun₁ := (bind_run_ok hrecord).symm.trans hrun
    obtain ⟨inner, hinner, hrun₂⟩ := margin_bind hrun₁
    obtain ⟨b, w₄, hb, hrun₃⟩ := bind_run_cases hrun₂
    obtain ⟨rfl, hshown⟩ := hshows _ _ _ _ hb
    obtain ⟨spaces, hindent, hpure⟩ := margin_bind hrun₃
    cases hpure
    exact ⟨rfl, methodText_shown (fun _ => Phrase.ne_nil) hls hshown hinner hindent⟩
  · exact hfalse.elim

end Frames

/-! ## Statements -/

section Statements

variable {T : Bytes → Prop} {lead : UInt8 → Prop} (o : Options)

/-- An expression is written as one phrase whatever the indentation. -/
theorem expr_steady (hT : Composes T) (hlead : ∀ b, b ≠ 0x20 → lead b) {e : Node}
    (h : isExpr e = true) (hf : AllFit T lead e) :
    Steady o (Phrase T lead) fun o level => write o e level :=
  steady_of_writes (write_phrase o hT hlead e h hf 0) fun width level =>
    write_unindented o width e h level

theorem range_steady (hT : Composes T) (hlead : ∀ b, b ≠ 0x20 → lead b) {start stop : Node}
    (hstart : isExpr start = true ∧ AllFit T lead start ∨ start = .gap)
    (hstop : isExpr stop = true) (hf : AllFit T lead stop) :
    Steady o T fun o level => writeRange start (write o start level) (write o stop level) := by
  have hwrites := write_phrase o hT hlead stop hstop hf 0
  rcases hstart with ⟨hs, hsf⟩ | rfl
  · have hgap : start ≠ .gap := by
      rintro rfl
      simp [isExpr] at hs
    have hrange : ∀ a b : Writer Bytes, writeRange start a b = do
        let x ← a
        let y ← b
        return x ++ ":" ++ y := by
      intro a b
      unfold writeRange
      split
      · exact (hgap rfl).elim
      · rfl
    have hfixed : Writes T False (writeRange start (write o start 0) (write o stop 0)) := by
      rw [hrange]
      exact .bind (write_phrase o hT hlead start hs hsf 0) fun a ha => .bind hwrites fun b hb =>
        .pure (hT.append (hT.append ha.text (hT.ink (by decide))) hb.text)
    exact steady_of_writes hfixed fun width level => by
      rw [write_unindented o width start hs, write_unindented o width stop hstop]
  · exact steady_of_writes (hwrites.mono (fun _ => Phrase.text) id) fun width level =>
      write_unindented o width stop hstop level

theorem return_steady (hT : Composes T) (hlead : ∀ b, b ≠ 0x20 → lead b) {value : Node}
    (h : isExpr value = true ∧ AllFit T lead value ∨ value = .gap) :
    Steady o (Phrase T lead) fun o level => writeReturn value (write o value level) := by
  rcases h with ⟨hv, hf⟩ | rfl
  · have hreturn : ∀ m : Writer Bytes, writeReturn value m = do return "return " ++ (← m) := by
      intro m
      unfold writeReturn
      split
      · simp [isExpr] at hv
      · rfl
    have hfixed : Writes (Phrase T lead) False (writeReturn value (write o value 0)) := by
      rw [hreturn]
      exact .bind (write_phrase o hT hlead value hv hf 0) fun t ht =>
        .pure ((phrase_of_opens hT hlead (by decide)).append hT ht.text)
    exact steady_of_writes hfixed fun width level => by rw [write_unindented o width value hv]
  · have hfixed : Writes (Phrase T lead) False (pure (utf8 "return") : Writer Bytes) :=
      .pure (phrase_of_opens hT hlead (by decide))
    exact steady_of_writes hfixed fun _ _ => rfl

theorem operator?_of_operatorClass? {x op cls : Bytes} (h : operatorClass? x = some (op, cls)) :
    ∃ op', operator? op = some op' := by
  unfold operatorClass? at h
  dsimp only at h
  split at h
  · rename_i hsome
    cases h
    simp only [Bool.and_eq_true] at hsome
    exact Option.isSome_iff_exists.mp hsome.2
  · cases h

theorem operator?_ink {op op' : Bytes} (h : operator? op = some op') : op'.all isInk = true := by
  have htable : operatorTable.all (fun entry => (utf8 entry.2).all isInk) = true := by decide
  unfold operator? at h
  obtain ⟨entry, hentry, rfl⟩ := Option.map_eq_some_iff.mp h
  exact List.all_eq_true.mp htable entry (List.mem_of_find?_eq_some hentry)

theorem isCloser_elseif (c : Bytes) : isCloser ("elseif " ++ c) = true := by
  simp [isCloser]

mutual

/-- The lines of a statement. -/
theorem write_lays (hT : Composes T) (hlead : ∀ b, b ≠ 0x20 → lead b) :
    ∀ n : Node, isStatement n = true → AllFit T lead n →
      Lays o (Laid (Phrase T lead)) Shown fun o level => write o n level
  | .assign x value, h, hf =>
      .line (expr_steady o hT hlead (by simpa only [isStatement] using h) hf)
  | .assignIndex target i value, h, hf =>
      .line (expr_steady o hT hlead (by simpa only [isStatement] using h) hf)
  | .exprStmt e, h, hf => by
      simp only [isStatement, Bool.and_eq_true] at h
      simp only [write]
      exact .unlessRefused (.line (expr_steady o hT hlead h.1 (hf.child (by simp [children]))))
  | .ifElse cond yes no, h, hf => by
      simp only [isStatement, Bool.and_eq_true] at h
      have hyes := writeBody_lays hT hlead yes h.1.2 (hf.child (by simp [children]))
      have hno := writeElse_lays hT hlead no h.2 fun ss hss => hf.child (by simp [children, hss])
      simp only [write]
      refine .unlessRefused (.bind (expr_steady o hT hlead h.1.1 (hf.child (by simp [children])))
        fun c hc => ?_)
      exact .branched (fun _ => Phrase.ne_nil)
        ((phrase_of_opens hT hlead (by decide)).append hT hc.text) hyes hno
  | .whileLoop cond body, h, hf => by
      simp only [isStatement, Bool.and_eq_true] at h
      have hbody := writeBody_lays hT hlead body h.2 (hf.child (by simp [children]))
      have hend : Phrase T lead "end" := phrase_of_opens hT hlead (by decide)
      have hloop : Lays o (Laid (Phrase T lead)) Shown fun o level =>
          writeWhile o level (write o cond level) (writeBody o body level) :=
        .bind (expr_steady o hT hlead h.1 (hf.child (by simp [children]))) fun c hc =>
          .frame (fun _ => Phrase.ne_nil) hend
            ((phrase_of_opens hT hlead (by decide)).append hT hc.text) hbody
      have hnames : Steady o (fun names => ∀ x ∈ names, T x)
          fun _ _ => (loopBindings cond body : Writer (List Bytes)) :=
        steady_of_writes (loopBindings_texts h.2 hf) fun _ _ => rfl
      simp only [write]
      refine .unlessRefused (.bind hnames fun names hn => ?_)
      by_cases hempty : names = []
      · simp only [if_pos hempty]
        exact hloop
      · simp only [if_neg hempty]
        refine .let_frame (fun _ => Phrase.ne_nil) hend ?_ hloop
        refine (phrase_of_opens hT hlead (by decide)).append hT (commaList_text hT fun t ht => ?_)
        obtain ⟨x, hx, rfl⟩ := List.mem_map.mp ht
        exact hT.append (hT.append (hn x hx) (hT.ink (by decide))) (hn x hx)
  | .forLoop x start stop body, h, hf => by
      simp only [isStatement, Bool.and_eq_true, Bool.or_eq_true] at h
      have hx : Phrase T lead (unquote x) := hf.label
      have hstart : isExpr start = true ∧ AllFit T lead start ∨ start = .gap := by
        rcases h.1.1 with hs | hs
        · refine .inl ⟨hs, hf.child ?_⟩
          cases start <;> simp_all [children, isExpr]
        · exact .inr (eq_gap_of_isGap hs.1)
      have hstop : AllFit T lead stop := hf.child (by cases start <;> simp [children])
      have hbody := writeBody_lays hT hlead body h.2
        (hf.child (by cases start <;> simp [children]))
      simp only [write]
      refine .unlessRefused (.bind (range_steady o hT hlead hstart h.1.2 hstop) fun range hr => ?_)
      refine .frame (fun _ => Phrase.ne_nil) (phrase_of_opens hT hlead (by decide)) ?_ hbody
      exact (((phrase_of_opens hT hlead (by decide)).append hT hx.text).append hT
        (hT.ink (by decide))).append hT hr
  | .function x params body, h, hf => by
      simp only [isStatement, Bool.and_eq_true] at h
      obtain ⟨hx, hparams⟩ : T (unquote x) ∧ ∀ p ∈ params, T p := hf.label
      have hbody := writeBody_lays hT hlead body h.2 (hf.child (by simp [children]))
      simp only [write]
      refine .unlessRefused ?_
      split
      · rename_i op cls hclass
        refine .method hT hlead ?_ hparams hbody
        obtain ⟨op', hop⟩ := operator?_of_operatorClass? hclass
        rw [hop]
        exact hT.ink (operator?_ink hop)
      · exact .function hT hlead hx hparams hbody
  | .operator op cls params body, h, hf => by
      simp only [isStatement, Bool.and_eq_true] at h
      obtain ⟨hop, hcls, hparams⟩ : T op ∧ T cls ∧ ∀ p ∈ params, T p := hf.label
      have hbody := writeBody_lays hT hlead body h.2 (hf.child (by simp [children]))
      simp only [write]
      refine .unlessRefused ?_
      split
      · rename_i op' hop'
        exact .method hT hlead (hT.ink (operator?_ink hop')) hparams hbody
      · exact .function hT hlead (hT.append (hT.append hop (hT.ink (by decide))) hcls) hparams hbody
  | .ret value, h, hf => by
      simp only [isStatement, Bool.or_eq_true] at h
      simp only [write]
      refine .unlessRefused (.line (return_steady o hT hlead ?_))
      rcases h with hv | hv
      · refine .inl ⟨hv, hf.child ?_⟩
        cases value <;> simp_all [children, isExpr]
      · exact .inr (eq_gap_of_isGap hv)
  | .gap, h, _ | .program _, h, _ | .block _, h, _ | .call .., h, _
  | .named .., h, _ | .binary .., h, _ | .unary .., h, _ | .var _, h, _
  | .int _, h, _ | .float _, h, _ | .string _, h, _ | .bool _, h, _
  | .index .., h, _ | .field .., h, _ | .predicate .., h, _ => by
      simp [isStatement] at h

theorem writeStatements_lays (hT : Composes T) (hlead : ∀ b, b ≠ 0x20 → lead b) :
    ∀ ss : List Node, areStatements ss = true → (∀ s ∈ ss, AllFit T lead s) →
      Lays o (Laid (Phrase T lead)) ShownAll fun o level => writeStatements o ss level
  | [], _, _ => by
      simp only [writeStatements]
      intro w hw
      refine ⟨[], w, .nil, hw, fun width level parts w' hrun => ?_⟩
      cases hrun
      exact ⟨rfl, .nil, by simp⟩
  | s :: ss, h, hf => by
      simp only [areStatements, Bool.and_eq_true] at h
      have hs := write_lays hT hlead s h.1 (hf s List.mem_cons_self)
      have hss := writeStatements_lays hT hlead ss h.2 fun r hr => hf r (List.mem_cons_of_mem s hr)
      simp only [writeStatements]
      intro w hw
      obtain ⟨ls, w₁, hls, hw₁, hshows⟩ := hs w hw
      obtain ⟨ms, w₂, hms, hw₂, hshows'⟩ := hss w₁ hw₁
      refine ⟨ls ++ ms, w₂, hls.append hms, hw₂, fun width level parts w' hrun => ?_⟩
      obtain ⟨text, w₃, htext, hrun₁⟩ := bind_run_cases hrun
      obtain ⟨rfl, hshown⟩ := hshows _ _ _ _ htext
      have hne := hshown.ne_nil hls fun _ => Phrase.ne_nil
      obtain ⟨line, w₄, hline, hrun₂⟩ := bind_run_cases hrun₁
      obtain ⟨rfl, spaces, hindent, rfl⟩ := bodyLine_run hne hline
      obtain ⟨rest, w₅, hrest, hpure⟩ := bind_run_cases hrun₂
      obtain ⟨rfl, hstacked, hfull⟩ := hshows' _ _ _ _ hrest
      cases hpure
      refine ⟨rfl, ?_, ?_⟩
      · rw [hung_append]
        exact (hshown.stacked hindent hne).append hstacked
      · intro x hx
        rcases List.mem_cons.mp hx with rfl | hx
        · simp [hne]
        · exact hfull x hx

theorem writeBody_lays (hT : Composes T) (hlead : ∀ b, b ≠ 0x20 → lead b) :
    ∀ body : Option (List Node), isBody body = true → AllFit T lead (bodyNode body) →
      Lays o (Laid (Phrase T lead)) ShownBody fun o level => writeBody o body level
  | none, h, _ => by simp [isBody] at h
  | some ss, h, hf => by
      have hss := writeStatements_lays hT hlead ss h fun s hs => hf.child hs
      simp only [writeBody]
      intro w hw
      obtain ⟨ls, w₁, hls, hw₁, hshows⟩ := hss w hw
      refine ⟨ls, w₁, hls, hw₁, fun width level text w' hrun => ?_⟩
      obtain ⟨parts, w₂, hparts, hpure⟩ := bind_run_cases hrun
      obtain ⟨rfl, hstacked, hfull⟩ := hshows _ _ _ _ hparts
      cases hpure
      refine ⟨rfl, ?_⟩
      unfold ShownBody
      rw [hung_intercalate hfull]
      exact hstacked.deeper

theorem writeElseIf_lays (hT : Composes T) (hlead : ∀ b, b ≠ 0x20 → lead b) :
    ∀ n : Node, isStatement n = true → AllFit T lead n →
      (∀ o level, writeElseIf o n level = none) ∨
        ∃ m, (∀ o level, writeElseIf o n level = some (m o level)) ∧
          Lays o (Closing (Phrase T lead)) ShownParts m
  | .ifElse cond yes no, h, hf => by
      simp only [isStatement, Bool.and_eq_true] at h
      have hyes := writeBody_lays hT hlead yes h.1.2 (hf.child (by simp [children]))
      have hno := writeElse_lays hT hlead no h.2 fun ss hss => hf.child (by simp [children, hss])
      have hcond := expr_steady o hT hlead h.1.1 (hf.child (by simp [children]))
      refine .inr ⟨_, fun o level => by rw [writeElseIf], ?_⟩
      intro w hw
      obtain ⟨c, w₁, hc, hw₁, hcrun⟩ := hcond w hw
      obtain ⟨ls, w₂, hls, hw₂, hshows⟩ := hyes w₁ hw₁
      obtain ⟨ms, w₃, hms, hw₃, hparts⟩ := hno w₂ hw₂
      have hhead : Phrase T lead ("elseif " ++ c) :=
        (phrase_of_opens hT hlead (by decide)).append hT hc.text
      refine ⟨_, w₃, hms.branch hhead (isCloser_elseif c) hls, hw₃, fun width level parts w' hrun => ?_⟩
      obtain ⟨spaces, hindent, hrun₁⟩ := margin_bind hrun
      have hrun₂ := (bind_run_ok (hcrun width level)).symm.trans hrun₁
      obtain ⟨y, w₅, hy, hrun₃⟩ := bind_run_cases hrun₂
      obtain ⟨rfl, hshown⟩ := hshows _ _ _ _ hy
      obtain ⟨n, w₆, hn, hpure⟩ := bind_run_cases hrun₃
      obtain ⟨rfl, hshown'⟩ := hparts _ _ _ _ hn
      cases hpure
      refine ⟨rfl, ?_⟩
      rw [List.append_assoc]
      exact shown_branch hhead.ne_nil hindent hshown hshown'
  | .assign .., _, _ | .assignIndex .., _, _ | .exprStmt _, _, _
  | .whileLoop .., _, _ | .forLoop .., _, _ | .function .., _, _
  | .operator .., _, _ | .ret _, _, _ | .gap, _, _ | .program _, _, _
  | .block _, _, _ | .call .., _, _ | .named .., _, _ | .binary .., _, _
  | .unary .., _, _ | .var _, _, _ | .int _, _, _ | .float _, _, _
  | .string _, _, _ | .bool _, _, _ | .index .., _, _ | .field .., _, _
  | .predicate .., _, _ => .inl fun o level => by simp [writeElseIf]

theorem writeChain_lays (hT : Composes T) (hlead : ∀ b, b ≠ 0x20 → lead b) :
    ∀ ss : List Node, areStatements ss = true → (∀ s ∈ ss, AllFit T lead s) →
      (∀ o level, writeChain o ss level = none) ∨
        ∃ m, (∀ o level, writeChain o ss level = some (m o level)) ∧
          Lays o (Closing (Phrase T lead)) ShownParts m
  | [n], h, hf => by
      simp only [areStatements, Bool.and_true] at h
      simp only [writeChain]
      exact writeElseIf_lays hT hlead n h (hf n List.mem_cons_self)
  | [], _, _ | _ :: _ :: _, _, _ => .inl fun o level => by simp [writeChain]

theorem writeElse_lays (hT : Composes T) (hlead : ∀ b, b ≠ 0x20 → lead b) :
    ∀ body : Option (List Node), isElse body = true →
      (∀ ss, body = some ss → AllFit T lead (.block ss)) →
      Lays o (Closing (Phrase T lead)) ShownParts fun o level => writeElse o body level
  | none, _, _ => by
      simp only [writeElse]
      intro w hw
      refine ⟨[], w, closing_nil (phrase_of_opens hT hlead (by decide)), hw,
        fun width level parts w' hrun => ?_⟩
      cases hrun
      exact ⟨rfl, shownParts_nil⟩
  | some ss, h, hf => by
      have hss := writeStatements_lays hT hlead ss h fun s hs => (hf ss rfl).child hs
      have hchain := writeChain_lays hT hlead ss h fun s hs => (hf ss rfl).child hs
      simp only [writeElse]
      -- One `if` alone continues the chain; anything else is a body behind an `else`.
      rcases hchain with hnone | ⟨m, hm, hlays⟩
      · simp only [hnone, Option.getD_none]
        exact .plainElse hT hlead hss
      · simp only [hm, Option.getD_some]
        exact hlays

end

end Statements

/-! ## Programs -/

section Programs

def headerLines (used : List Package) : List Line :=
  (Package.all.filter (used.contains ·)).map fun p => ⟨0, "using " ++ p.name⟩

def recordLines (type : Bytes) : List Line :=
  [⟨0, "struct " ++ type⟩, ⟨1, recordField⟩, ⟨0, "end"⟩]

variable {T : Bytes → Prop} {lead : UInt8 → Prop} {o : Options}

theorem headerLines_laid (hT : Composes T) (hlead : ∀ b, b ≠ 0x20 → lead b) (used : List Package) :
    Laid (Phrase T lead) (headerLines used) := by
  unfold headerLines
  induction Package.all.filter (used.contains ·) with
  | nil => exact .nil
  | cons p ps ih => exact .line (phrase_of_opens hT hlead (by cases p <;> decide)) ih

theorem header_stacked (used : List Package) :
    Stacked o 0 (headerLines used) (hung [Package.header used]) := by
  have hne : ∀ p : Package, utf8 "using " ++ p.name ≠ [] := by
    intro p
    cases p <;> decide
  unfold headerLines Package.header
  rw [hung_intercalate fun x hx => by obtain ⟨p, -, rfl⟩ := List.mem_map.mp hx; exact hne p]
  induction Package.all.filter (used.contains ·) with
  | nil => exact .nil
  | cons p ps ih =>
      rw [List.map_cons, List.map_cons, hung_cons]
      exact (stacked_line (margin_zero o) (hne p)).append ih

theorem recordLines_laid (hT : Composes T) (hlead : ∀ b, b ≠ 0x20 → lead b) {types : List Bytes}
    (h : ∀ t ∈ types, T t) : Laid (Phrase T lead) (types.flatMap recordLines) := by
  induction types with
  | nil => exact .nil
  | cons t types ih =>
      have hfield : Laid (Phrase T lead) [⟨0, recordField⟩] :=
        .line (phrase_of_opens hT hlead (by decide)) .nil
      have hlines : Laid (Phrase T lead) (recordLines t) :=
        hfield.close ((phrase_of_opens hT hlead (by decide)).append hT (h t List.mem_cons_self))
          (closing_nil (phrase_of_opens hT hlead (by decide)))
      rw [List.flatMap_cons]
      exact hlines.append (ih fun t' ht' => h t' (List.mem_cons_of_mem t ht'))

theorem definitions_stacked {types definitions : List Bytes} {w w' : Work}
    (h : types.mapM (recordDefinition o) w = .ok (definitions, w')) :
    Stacked o 0 (types.flatMap recordLines) (hung definitions) := by
  induction types generalizing definitions w w' with
  | nil =>
      rw [List.mapM_nil] at h
      cases h
      exact .nil
  | cons type types ih =>
      rw [List.mapM_cons] at h
      obtain ⟨text, w₁, hhead, hrest⟩ := bind_run_cases h
      obtain ⟨texts, w₂, htail, hpure⟩ := bind_run_cases hrest
      obtain ⟨spaces, hindent, htext⟩ := margin_bind hhead
      cases htext
      cases hpure
      have hstruct : utf8 "struct " ++ type ≠ [] := List.append_ne_nil_of_left_ne_nil (by decide) _
      have hopen : Stacked o 0 [⟨0, "struct " ++ type⟩] (hung ["struct " ++ type]) :=
        stacked_line (margin_zero o) hstruct
      have hfield : Stacked o 0 [⟨1, recordField⟩] (hung [spaces ++ recordField]) :=
        (stacked_line hindent (by decide)).deeper
      have hclose : Stacked o 0 [⟨0, "end"⟩] (hung ["end"]) :=
        stacked_line (margin_zero o) (by decide)
      have hparts : hung ["struct " ++ type, spaces ++ recordField, "end"] =
          hung ["struct " ++ type] ++ (hung [spaces ++ recordField] ++ hung ["end"]) := by
        rw [← hung_append, ← hung_append]
        rfl
      rw [hung_cons, hung_joinLines, hparts]
      exact (hopen.append (hfield.append hclose)).append (ih htail)

theorem uses_recordName {n : Node} {type : Bytes} (h : Uses o n type) :
    ∃ cls, type = recordName cls := by
  induction h with
  | @own n type h =>
      unfold ownRecord? at h
      split at h
      · obtain ⟨cls, -, rfl⟩ := Option.map_eq_some_iff.mp h
        exact ⟨cls, rfl⟩
      · obtain ⟨p, -, rfl⟩ := Option.map_eq_some_iff.mp h
        exact ⟨p.2, rfl⟩
      · obtain ⟨op, -, rfl⟩ := Option.map_eq_some_iff.mp h
        exact ⟨_, rfl⟩
      · cases h
  | part _ _ ih => exact ih

theorem writeProgram_lays (hT : Composes T) (hlead : ∀ b, b ≠ 0x20 → lead b) {ss : List Node}
    (h : areStatements ss = true) (hf : ∀ s ∈ ss, AllFit T lead s) :
    Lays o (Laid (Phrase T lead)) (fun o _ => ShownParts o 0) fun o _ => writeProgram o ss := by
  have hall : Lays o (Laid (Phrase T lead)) (fun o _ => ShownParts o 0)
      fun o _ => ss.mapM (write o · 0) := by
    induction ss with
    | nil =>
        intro w hw
        refine ⟨[], w, .nil, hw, fun width level parts w' hrun => ?_⟩
        cases hrun
        exact ⟨rfl, .nil⟩
    | cons s ss ih =>
        simp only [areStatements, Bool.and_eq_true] at h
        have hs := write_lays o hT hlead s h.1 (hf s List.mem_cons_self)
        simp only [List.mapM_cons]
        intro w hw
        obtain ⟨ls, w₁, hls, hw₁, hshows⟩ := hs w hw
        obtain ⟨ms, w₂, hms, hw₂, hstacks⟩ := ih h.2 (fun r hr => hf r (List.mem_cons_of_mem s hr)) w₁ hw₁
        refine ⟨ls ++ ms, w₂, hls.append hms, hw₂, fun width level parts w' hrun => ?_⟩
        obtain ⟨text, w₃, htext, hrun₁⟩ := bind_run_cases hrun
        obtain ⟨rfl, hshown⟩ := hshows _ _ _ _ htext
        obtain ⟨rest, w₄, hrest, hpure⟩ := bind_run_cases hrun₁
        obtain ⟨rfl, hstacked⟩ := hstacks _ level _ _ hrest
        cases hpure
        refine ⟨rfl, ?_⟩
        change Stacked _ 0 _ (hung (text :: rest))
        rw [hung_cons]
        exact (hshown.stacked (margin_zero _) (hshown.ne_nil hls fun _ => Phrase.ne_nil)).append
          hstacked
  intro w hw
  obtain ⟨ls, w₁, hls, hw₁, hstacks⟩ := hall w hw
  refine ⟨ls, w₁, hls, hw₁, fun width level parts w' hrun => ?_⟩
  obtain ⟨texts, w₂, htexts, hpure⟩ := bind_run_cases hrun
  obtain ⟨rfl, hstacked⟩ := hstacks _ level _ _ htexts
  cases hpure
  refine ⟨rfl, ?_⟩
  change Stacked _ 0 _ (hung (texts.filter (· ≠ [])))
  rw [hung_filter]
  exact hstacked

/-- A program that is the first of its session has the same lines under every width: the packages,
the record types and the statements. -/
theorem generate_lays (hT : Composes T) (hlead : ∀ b, b ≠ 0x20 → lead b) {ss : List Node}
    (h : areStatements ss = true) (hf : ∀ s ∈ ss, AllFit T lead s) :
    ∃ lines, Laid (Phrase T lead) lines ∧ ∀ width text s',
      Session.generate { o with indentWidth := width } {} ss = .ok (.ok text, s') →
        ∃ below, Stacked { o with indentWidth := width } 0 lines below ∧ text = below.tail := by
  obtain ⟨ls, w, hls, hw, hstacks⟩ := writeProgram_lays (o := o) hT hlead h hf ({} : Session).start rfl
  -- The record types are those of any run that ends, for all runs leave the same work behind.
  by_cases hruns : ∃ width parts w', writeProgram { o with indentWidth := width } ss
      ({} : Session).start = .ok (parts, w')
  · obtain ⟨width₀, parts₀, w₀, hrun₀⟩ := hruns
    obtain ⟨rfl, -⟩ := hstacks width₀ 0 _ _ hrun₀
    have htypes : ∀ t ∈ w₀.fresh, T t := by
      intro t ht
      obtain ⟨hgrows, hclean⟩ := writeProgram_notes { o with indentWidth := width₀ } ss _ _ _ hrun₀
      obtain ⟨new, hrecords, hfresh, -, -⟩ := hgrows.added
      have hmem : t ∈ w₀.records := by
        rw [hfresh] at ht
        rw [hrecords]
        exact ht
      rcases ((hclean hw).2 t).mp hmem with hold | ⟨s, -, huses⟩
      · cases hold
      · obtain ⟨cls, rfl⟩ := uses_recordName huses
        exact hT.record cls
    refine ⟨headerLines w₀.packages ++ w₀.fresh.flatMap recordLines ++ ls,
      ((headerLines_laid hT hlead _).append (recordLines_laid hT hlead htypes)).append hls,
      fun width text s' hgen => ?_⟩
    cases hrun : writeProgram { o with indentWidth := width } ss ({} : Session).start with
    | error reason =>
        rw [Session.generate_halt hrun] at hgen
        cases hgen
    | ok result =>
        obtain ⟨parts, w⟩ := result
        obtain ⟨rfl, hstacked⟩ := hstacks width 0 _ _ hrun
        cases hd : w.fresh.mapM (recordDefinition { o with indentWidth := width }) w with
        | error reason =>
            rw [Session.generate_definition_halt hrun hw hd] at hgen
            cases hgen
        | ok result =>
            obtain ⟨definitions, w'⟩ := result
            rw [Session.generate_written hrun hw hd] at hgen
            cases hgen
            refine ⟨_, ((header_stacked _).append (definitions_stacked hd)).append hstacked, ?_⟩
            rw [joinLines_eq, ← hung_append, ← hung_append]
            rfl
  · refine ⟨[], .nil, fun width text s' hgen => ?_⟩
    cases hrun : writeProgram { o with indentWidth := width } ss ({} : Session).start with
    | error reason =>
        rw [Session.generate_halt hrun] at hgen
        cases hgen
    | ok result => exact (hruns ⟨width, result.1, result.2, hrun⟩).elim

end Programs

end RToJulia.Julia
