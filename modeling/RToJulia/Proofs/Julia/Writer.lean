import RToJulia.Julia.Session

/-! # Steps of a writer

`Writes P short m` says what a writer does from a state in which no node was
refused: it writes a value that meets `P` and refuses nothing, or it halts for an
indentation out of range, and then `short` holds. A writer made of others is
checked one step at a time.
-/

namespace RToJulia.Julia

open Writer

variable {α β : Type}

theorem bind_run_ok {m : Writer α} {f : α → Writer β} {w w' : Work} {a : α}
    (h : m w = .ok (a, w')) : (m >>= f) w = f a w' := by
  simp [bind, StateT.bind, Except.bind, h]

theorem bind_run_error {m : Writer α} {f : α → Writer β} {w : Work} {reason : Halt}
    (h : m w = .error reason) : (m >>= f) w = .error reason := by
  simp [bind, StateT.bind, Except.bind, h]

theorem useFunction_run_none {function : Bytes} (h : Package.ofFunction? function = none)
    (w : Work) : useFunction function w = .ok ((), w) := by
  unfold useFunction
  rw [h]
  rfl

theorem useFunction_run_some {function : Bytes} {p : Package}
    (h : Package.ofFunction? function = some p) (w : Work) :
    useFunction function w = .ok ((), if p ∈ w.packages then w
      else { w with packages := w.packages ++ [p] }) := by
  unfold useFunction
  rw [h]
  rfl

/-- From a state without a refusal, a value that meets `P` without a new one, or a halt for an
indentation under `short`. -/
def Writes (P : α → Prop) (short : Prop) (m : Writer α) : Prop :=
  ∀ w : Work, w.unsupported = none →
    (∃ a w', m w = .ok (a, w') ∧ w'.unsupported = none ∧ P a) ∨
      m w = .error .indentation ∧ short

namespace Writes

variable {P : α → Prop} {Q : β → Prop} {short : Prop} {m : Writer α}

theorem pure {a : α} (h : P a) : Writes P short (Pure.pure a : Writer α) := by
  intro w hw
  exact .inl ⟨a, w, rfl, hw, h⟩

theorem bind {f : α → Writer β} (hm : Writes P short m) (hf : ∀ a, P a → Writes Q short (f a)) :
    Writes Q short (m >>= f) := by
  intro w hw
  rcases hm w hw with ⟨a, w', ha, hw', hp⟩ | ⟨hhalt, hshort⟩
  · rw [bind_run_ok ha]
    exact hf a hp w' hw'
  · exact .inr ⟨bind_run_error hhalt, hshort⟩

theorem mono {P' : α → Prop} {short' : Prop} (h : Writes P short m) (hp : ∀ a, P a → P' a)
    (hs : short → short') : Writes P' short' m := by
  intro w hw
  rcases h w hw with ⟨a, w', ha, hw', hpa⟩ | ⟨hhalt, hshort⟩
  · exact .inl ⟨a, w', ha, hw', hp a hpa⟩
  · exact .inr ⟨hhalt, hs hshort⟩

theorem unlessRefused {P : Bytes → Prop} {m : Writer Bytes} (h : Writes P short m) :
    Writes P short (unlessRefused m) := by
  intro w hw
  have hrun : Writer.unlessRefused m w = m w := by
    change (if w.unsupported.isSome then Pure.pure [] else m) w = m w
    rw [hw]
    rfl
  rw [hrun]
  exact h w hw

theorem modify {f : Work → Work} (h : ∀ w, w.unsupported = none → (f w).unsupported = none) :
    Writes (fun _ => True) short (modify f : Writer Unit) := by
  intro w hw
  exact .inl ⟨(), f w, rfl, h w hw, trivial⟩

theorem useRecord (type : Bytes) : Writes (fun _ => True) short (useRecord type) := by
  apply modify
  intro w hw
  split <;> exact hw

theorem useFunction (function : Bytes) : Writes (fun _ => True) short (useFunction function) := by
  apply modify
  intro w hw
  split
  · split <;> exact hw
  · exact hw

/-- What writes each item writes the list of them. -/
theorem mapM {ι : Type} {f : ι → Writer α} {items : List ι} (h : ∀ i ∈ items, Writes P short (f i)) :
    Writes (fun as => ∀ a ∈ as, P a) short (items.mapM f) := by
  induction items with
  | nil =>
      rw [List.mapM_nil]
      exact pure (by simp)
  | cons i items ih =>
      rw [List.mapM_cons]
      refine bind (h i (by simp)) fun a ha => ?_
      refine bind (ih fun j hj => h j (by simp [hj])) fun as has => ?_
      exact pure (by simpa using ⟨ha, has⟩)

end Writes

/-! ## Programs in a session

The ways a program ends in a session: its writing halts, it is refused for a node
without a Julia form, the writing of a record definition halts, or it is written.
-/

namespace Session

variable {o : Options} {s : Session} {ss : List Node} {lines : List Bytes} {w : Work}

theorem generate_halt {reason : Halt} (h : writeProgram o ss s.start = .error reason) :
    s.generate o ss = .error reason := by
  have hrun : (writeProgram o ss).run s.start = .error reason := h
  simp [generate, hrun, bind, Except.bind]

theorem generate_refused {n : Node} (h : writeProgram o ss s.start = .ok (lines, w))
    (hn : w.unsupported = some n) : s.generate o ss = .ok (.error ⟨n⟩, afterRefusal w) := by
  have hrun : (writeProgram o ss).run s.start = .ok (lines, w) := h
  simp [generate, hrun, hn, bind, Except.bind, pure, Except.pure]

theorem generate_definition_halt {reason : Halt} (h : writeProgram o ss s.start = .ok (lines, w))
    (hn : w.unsupported = none) (hd : w.fresh.mapM (recordDefinition o) w = .error reason) :
    s.generate o ss = .error reason := by
  have hrun : (writeProgram o ss).run s.start = .ok (lines, w) := h
  have hdefs : (w.fresh.mapM (recordDefinition o)).run w = .error reason := hd
  simp [generate, hrun, hn, hdefs, bind, Except.bind]

theorem generate_written {definitions : List Bytes} {w' : Work}
    (h : writeProgram o ss s.start = .ok (lines, w)) (hn : w.unsupported = none)
    (hd : w.fresh.mapM (recordDefinition o) w = .ok (definitions, w')) :
    s.generate o ss =
      .ok (.ok (joinLines (Package.header w.packages :: definitions ++ lines)), afterProgram w) := by
  have hrun : (writeProgram o ss).run s.start = .ok (lines, w) := h
  have hdefs : (w.fresh.mapM (recordDefinition o)).run w = .ok (definitions, w') := hd
  simp [generate, hrun, hn, hdefs, bind, Except.bind, pure, Except.pure]

end Session

end RToJulia.Julia
