import RToJulia.Proofs.Julia.Steps

/-! # The notes of a writer

The only thing a writer looks up in its state is whether a node was refused. From
any two states that agree in this it ends alike: it halts for the same reason, or
it returns the same value and adds the same notes in the same order.
-/

namespace RToJulia.Julia

open Writer

inductive Note where
  | record (type : Bytes)
  | package (p : Package)

namespace Work

def note (w : Work) : Note → Work
  | .record type =>
      if type ∈ w.records then w
      else { w with records := w.records ++ [type], fresh := w.fresh ++ [type] }
  | .package p => if p ∈ w.packages then w else { w with packages := w.packages ++ [p] }

/-- The state with some notes added, and with `refused` as the first node without a form. -/
def after (w : Work) (notes : List Note) (refused : Option Node) : Work :=
  { notes.foldl note w with unsupported := refused }

@[simp] theorem after_unsupported (w : Work) (notes : List Note) (refused : Option Node) :
    (w.after notes refused).unsupported = refused := rfl

theorem after_nil {w : Work} {refused : Option Node} (h : w.unsupported = refused) :
    w.after [] refused = w := by
  subst h
  rfl

theorem note_unsupported (w : Work) (n : Note) : (w.note n).unsupported = w.unsupported := by
  cases n <;> unfold note <;> dsimp only <;> split <;> rfl

theorem after_singleton {w : Work} (n : Note) {refused : Option Node}
    (h : w.unsupported = refused) : w.after [n] refused = w.note n := by
  have hn := note_unsupported w n
  rw [h] at hn
  subst hn
  rfl

theorem foldl_note_refused (notes : List Note) (w : Work) (refused : Option Node) :
    notes.foldl note { w with unsupported := refused } =
      { notes.foldl note w with unsupported := refused } := by
  induction notes generalizing w with
  | nil => rfl
  | cons n notes ih =>
      have hn : note { w with unsupported := refused } n = { w.note n with unsupported := refused } := by
        cases n <;> unfold note <;> dsimp only <;> split <;> rfl
      rw [List.foldl_cons, hn, ih, List.foldl_cons]

theorem after_after (w : Work) (first second : List Note) (r₁ r₂ : Option Node) :
    (w.after first r₁).after second r₂ = w.after (first ++ second) r₂ := by
  unfold after
  rw [foldl_note_refused, List.foldl_append]

/-- Which record types are new is told by those that are known. -/
theorem after_records {w v : Work} (hr : v.records = w.records) (hf : v.fresh = w.fresh)
    (notes : List Note) (refused : Option Node) :
    (v.after notes refused).records = (w.after notes refused).records ∧
      (v.after notes refused).fresh = (w.after notes refused).fresh := by
  unfold after
  induction notes generalizing w v with
  | nil => exact ⟨hr, hf⟩
  | cons n notes ih =>
      rw [List.foldl_cons, List.foldl_cons]
      cases n with
      | record type =>
          by_cases h : type ∈ w.records
          · have h' : type ∈ v.records := hr ▸ h
            simp only [note, if_pos h, if_pos h']
            exact ih hr hf
          · have h' : type ∉ v.records := hr ▸ h
            simp only [note, if_neg h, if_neg h']
            exact ih (by simp [hr]) (by simp [hf])
      | package p =>
          by_cases h : p ∈ w.packages <;> by_cases h' : p ∈ v.packages
          all_goals
            simp only [note, h, h', if_true, if_false]
            exact ih hr hf

theorem mem_packages_after (p : Package) (w : Work) (notes : List Note) (refused : Option Node) :
    p ∈ (w.after notes refused).packages ↔ p ∈ w.packages ∨ .package p ∈ notes := by
  unfold after
  induction notes generalizing w with
  | nil => simp
  | cons n notes ih =>
      dsimp only at ih
      rw [List.foldl_cons, ih, List.mem_cons]
      cases n with
      | record type =>
          have hsame : (w.note (.record type)).packages = w.packages := by
            unfold note
            dsimp only
            split <;> rfl
          simp [hsame]
      | package q =>
          by_cases h : q ∈ w.packages
          · simp only [note, if_pos h, Note.package.injEq]
            constructor
            · exact Or.imp_right Or.inr
            · rintro (hp | rfl | hp)
              · exact .inl hp
              · exact .inl h
              · exact .inr hp
          · simp [note, if_neg h, or_assoc]

end Work

/-- From all states with the same node refused, a writer halts for one reason or returns one
value and adds the same notes. -/
def Replays {α : Type} (m : Writer α) : Prop :=
  ∀ before : Option Node,
    (∃ reason, ∀ w : Work, w.unsupported = before → m w = .error reason) ∨
      ∃ a notes refused, ∀ w : Work, w.unsupported = before → m w = .ok (a, w.after notes refused)

namespace Replays

variable {α β : Type}

theorem pure (a : α) : Replays (Pure.pure a : Writer α) := by
  intro before
  refine .inr ⟨a, [], before, fun w hw => ?_⟩
  rw [Work.after_nil hw]
  rfl

theorem bind {m : Writer α} {f : α → Writer β} (hm : Replays m) (hf : ∀ a, Replays (f a)) :
    Replays (m >>= f) := by
  intro before
  rcases hm before with ⟨reason, hm⟩ | ⟨a, notes, refused, hm⟩
  · exact .inl ⟨reason, fun w hw => bind_run_error (hm w hw)⟩
  rcases hf a refused with ⟨reason, hf⟩ | ⟨b, notes', refused', hf⟩
  · refine .inl ⟨reason, fun w hw => ?_⟩
    rw [bind_run_ok (hm w hw)]
    exact hf _ rfl
  · refine .inr ⟨b, notes ++ notes', refused', fun w hw => ?_⟩
    rw [bind_run_ok (hm w hw), hf _ rfl, Work.after_after]

theorem useRecord (type : Bytes) : Replays (useRecord type) := by
  intro before
  refine .inr ⟨(), [.record type], before, fun w hw => ?_⟩
  rw [Work.after_singleton _ hw]
  rfl

theorem useFunction (function : Bytes) : Replays (useFunction function) := by
  intro before
  cases hp : Package.ofFunction? function with
  | none =>
      refine .inr ⟨(), [], before, fun w hw => ?_⟩
      rw [Work.after_nil hw, useFunction_run_none hp]
  | some p =>
      refine .inr ⟨(), [.package p], before, fun w hw => ?_⟩
      rw [Work.after_singleton _ hw, useFunction_run_some hp]
      rfl

theorem refuse (n : Node) : Replays (refuse n) := by
  intro before
  refine .inr ⟨[], [], before <|> some n, fun w hw => ?_⟩
  subst hw
  rfl

theorem unlessRefused {m : Writer Bytes} (h : Replays m) : Replays (unlessRefused m) := by
  intro before
  have hrun : ∀ w : Work, w.unsupported = before →
      Writer.unlessRefused m w = (if before.isSome then Pure.pure [] else m) w := by
    intro w hw
    change (if w.unsupported.isSome then Pure.pure [] else m) w = _
    rw [hw]
  cases before with
  | none =>
      rcases h none with ⟨reason, h⟩ | ⟨a, notes, refused, h⟩
      · exact .inl ⟨reason, fun w hw => (hrun w hw).trans (h w hw)⟩
      · exact .inr ⟨a, notes, refused, fun w hw => (hrun w hw).trans (h w hw)⟩
  | some n =>
      refine .inr ⟨[], [], some n, fun w hw => ?_⟩
      rw [hrun w hw, Work.after_nil hw]
      rfl

end Replays

/-- A writer put together from steps looks up nothing else. -/
theorem Built.replays {α : Type} {m : Writer α} (h : Built m) : Replays m := by
  induction h with
  | pure a => exact .pure a
  | bind _ _ hm hf => exact .bind hm hf
  | halt reason => exact fun _ => .inl ⟨reason, fun _ _ => rfl⟩
  | useRecord type => exact .useRecord type
  | useFunction function => exact .useFunction function
  | refuse n => exact .refuse n
  | unlessRefused _ hm => exact .unlessRefused hm

end RToJulia.Julia
