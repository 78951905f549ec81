import RToJulia.Proofs.Julia.Phrase
import RToJulia.Proofs.Julia.Totality

/-! # Names bound around a loop

The names that a `while` loop rebinds are names that its body assigns or its condition
compares, so their texts are among those of the loop's labels.
-/

namespace RToJulia.Julia

open Text Writer Node

theorem except_bind_ok {ε α β : Type} {x : Except ε α} {f : α → Except ε β} {b : β}
    (h : x >>= f = .ok b) : ∃ a, x = .ok a ∧ f a = .ok b := by
  cases x with
  | error e => exact nomatch h
  | ok a => exact ⟨a, rfl, h⟩

mutual

/-- Every name that counts as assigned has its assignment in the tree. -/
theorem occurs_of_assigned : ∀ (n : Node) (names : List Bytes), assigned n = .ok names →
    ∀ x ∈ names, ∃ value, Occurs n (.assign x value)
  | .assign y value, names, h, x, hx => by
      rw [assigned] at h
      obtain ⟨vs, hvs, hnames⟩ := except_bind_ok h
      cases hnames
      rcases List.mem_cons.mp hx with rfl | hx
      · exact ⟨value, .root⟩
      · obtain ⟨v, hv⟩ := occurs_of_assigned value vs hvs x hx
        exact ⟨v, occurs_of_child (by simp [children]) hv⟩
  | .block ss, names, h, x, hx => by
      rw [assigned] at h
      obtain ⟨s, hs, v, hv⟩ := occurs_of_assignedAll ss names h x hx
      exact ⟨v, occurs_of_child hs hv⟩
  | .ifElse cond yes no, names, h, x, hx => by
      rw [assigned] at h
      obtain ⟨cs, hcs, h⟩ := except_bind_ok h
      obtain ⟨ys, hys, h⟩ := except_bind_ok h
      obtain ⟨ns, hns, h⟩ := except_bind_ok h
      cases h
      simp only [List.append_assoc, List.mem_append] at hx
      rcases hx with hx | hx | hx
      · obtain ⟨v, hv⟩ := occurs_of_assigned cond cs hcs x hx
        exact ⟨v, occurs_of_child (by simp [children]) hv⟩
      · obtain ⟨v, hv⟩ := occurs_of_assignedBody yes ys hys x hx
        exact ⟨v, occurs_of_child (by simp [children]) hv⟩
      · obtain ⟨ss, rfl, s, hs, v, hv⟩ := occurs_of_assignedElse no ns hns x hx
        exact ⟨v, occurs_of_child (c := .block ss) (by simp [children])
          (occurs_of_child hs hv)⟩
  | .whileLoop cond body, names, h, x, hx => by
      rw [assigned] at h
      obtain ⟨cs, hcs, h⟩ := except_bind_ok h
      obtain ⟨bs, hbs, h⟩ := except_bind_ok h
      cases h
      rcases List.mem_append.mp hx with hx | hx
      · obtain ⟨v, hv⟩ := occurs_of_assigned cond cs hcs x hx
        exact ⟨v, occurs_of_child (by simp [children]) hv⟩
      · obtain ⟨v, hv⟩ := occurs_of_assignedBody body bs hbs x hx
        exact ⟨v, occurs_of_child (by simp [children]) hv⟩
  | .forLoop y start stop body, names, h, x, hx => by
      rw [assigned] at h
      obtain ⟨as, has, h⟩ := except_bind_ok h
      obtain ⟨es, hes, h⟩ := except_bind_ok h
      obtain ⟨bs, hbs, h⟩ := except_bind_ok h
      cases h
      simp only [List.append_assoc, List.mem_append] at hx
      rcases hx with hx | hx | hx
      · obtain ⟨v, hv⟩ := occurs_of_assigned start as has x hx
        refine ⟨v, occurs_of_child (c := start) ?_ hv⟩
        -- A start that is missing is no child, but it assigns nothing either.
        cases start with
        | gap =>
            simp only [assigned, pure, Except.pure, Except.ok.injEq] at has
            subst has
            cases hx
        | _ => simp [children]
      · obtain ⟨v, hv⟩ := occurs_of_assigned stop es hes x hx
        exact ⟨v, occurs_of_child (c := stop) (by cases start <;> simp [children]) hv⟩
      · obtain ⟨v, hv⟩ := occurs_of_assignedBody body bs hbs x hx
        exact ⟨v, occurs_of_child (c := bodyNode body) (by cases start <;> simp [children]) hv⟩
  | .exprStmt e, names, h, x, hx => by
      rw [assigned] at h
      obtain ⟨v, hv⟩ := occurs_of_assigned e names h x hx
      exact ⟨v, occurs_of_child (by simp [children]) hv⟩
  | .gap, _, h, _, hx | .program _, _, h, _, hx | .assignIndex .., _, h, _, hx
  | .function .., _, h, _, hx | .operator .., _, h, _, hx | .ret _, _, h, _, hx
  | .call .., _, h, _, hx | .named .., _, h, _, hx | .binary .., _, h, _, hx
  | .unary .., _, h, _, hx | .var _, _, h, _, hx | .int _, _, h, _, hx | .float _, _, h, _, hx
  | .string _, _, h, _, hx | .bool _, _, h, _, hx | .index .., _, h, _, hx | .field .., _, h, _, hx
  | .predicate .., _, h, _, hx => by
      simp only [assigned, pure, Except.pure, Except.ok.injEq] at h
      subst h
      cases hx

theorem occurs_of_assignedAll : ∀ (ss : List Node) (names : List Bytes),
    assignedAll ss = .ok names → ∀ x ∈ names, ∃ s ∈ ss, ∃ value, Occurs s (.assign x value)
  | [], names, h, x, hx => by
      rw [assignedAll] at h
      cases h
      cases hx
  | s :: ss, names, h, x, hx => by
      rw [assignedAll] at h
      obtain ⟨ns, hns, h⟩ := except_bind_ok h
      obtain ⟨ms, hms, h⟩ := except_bind_ok h
      cases h
      rcases List.mem_append.mp hx with hx | hx
      · exact ⟨s, List.mem_cons_self, occurs_of_assigned s ns hns x hx⟩
      · obtain ⟨r, hr, hv⟩ := occurs_of_assignedAll ss ms hms x hx
        exact ⟨r, List.mem_cons_of_mem s hr, hv⟩

theorem occurs_of_assignedBody : ∀ (body : Option (List Node)) (names : List Bytes),
    assignedBody body = .ok names → ∀ x ∈ names, ∃ value, Occurs (bodyNode body) (.assign x value)
  | none, _, h, _, _ => by
      rw [assignedBody] at h
      cases h
  | some ss, names, h, x, hx => by
      rw [assignedBody] at h
      obtain ⟨s, hs, v, hv⟩ := occurs_of_assignedAll ss names h x hx
      exact ⟨v, occurs_of_child (c := s) hs hv⟩

theorem occurs_of_assignedElse : ∀ (body : Option (List Node)) (names : List Bytes),
    assignedElse body = .ok names → ∀ x ∈ names,
      ∃ ss, body = some ss ∧ ∃ s ∈ ss, ∃ value, Occurs s (.assign x value)
  | none, _, h, _, hx => by
      rw [assignedElse] at h
      cases h
      cases hx
  | some ss, names, h, x, hx => by
      rw [assignedElse] at h
      exact ⟨ss, rfl, occurs_of_assignedAll ss names h x hx⟩

end

theorem mem_of_mem_firsts {x : Bytes} : ∀ {names : List Bytes}, x ∈ firsts names → x ∈ names
  | [], h => h
  | n :: ns, h => by
      rw [firsts] at h
      rcases List.mem_cons.mp h with rfl | h
      · exact List.mem_cons_self
      · exact List.mem_cons_of_mem n (mem_of_mem_firsts (List.mem_filter.mp h).1)

theorem occurs_of_compared {cond : Node} {x : Bytes} (h : x ∈ comparedVar cond) :
    Occurs cond (.var x) := by
  unfold comparedVar at h
  split at h
  · cases List.mem_singleton.mp h
    exact .child .root (by simp [children])
  · cases h

variable {T : Bytes → Prop} {lead : UInt8 → Prop}

/-- The names that a loop rebinds are labels of the loop. -/
theorem loopBindings_texts {cond : Node} {body : Option (List Node)} (h : isBody body = true)
    (hf : AllFit T lead (.whileLoop cond body)) :
    Writes (fun names => ∀ x ∈ names, T x) False (loopBindings cond body : Writer (List Bytes)) := by
  obtain ⟨names, hnames⟩ := assignedBody_ok body h
  have hcond : AllFit T lead cond := hf.child (by simp [children])
  have hbody : AllFit T lead (bodyNode body) := hf.child (by simp [children])
  have hbind : loopBindings cond body = .ok (firsts ((names ++ comparedVar cond).map unquote)) := by
    rw [loopBindings, hnames]
    rfl
  intro w hw
  refine .inl ⟨firsts ((names ++ comparedVar cond).map unquote), w, by rw [hbind]; rfl, hw, ?_⟩
  intro x hx
  obtain ⟨y, hy, rfl⟩ := List.mem_map.mp (mem_of_mem_firsts hx)
  rcases List.mem_append.mp hy with hy | hy
  · obtain ⟨value, hv⟩ := occurs_of_assignedBody body names hnames y hy
    have hfit : Phrase T lead (unquote y) := hbody _ hv
    exact hfit.text
  · have hfit : Phrase T lead (unquote y) := hcond _ (occurs_of_compared hy)
    exact hfit.text

end RToJulia.Julia
