import RToJulia.Julia.Session

/-! # Lines in blocks

Lines of text with a depth each, laid in blocks: the lines of a body are one level deeper
than the line that opens it and the line that closes it. Their text has them under one
another, each behind the indentation of its depth.
-/

namespace RToJulia.Julia

open Text Writer

/-! ## Lines and their depths -/

structure Line where
  depth : Nat
  text : Bytes

def deeper (ls : List Line) : List Line :=
  ls.map fun l => ⟨l.depth + 1, l.text⟩

/-- The line that ends a body: the end of the statement or another branch of it. -/
def isCloser (t : Bytes) : Bool :=
  t = "end" || t = "else" || (utf8 "elseif ").isPrefixOf t

/-- Lines in blocks, their texts in `P`: behind a line, the lines of a body are one level deeper,
and the next line at the depth of the first closes the body. -/
inductive Laid (P : Bytes → Prop) : List Line → Prop
  | nil : Laid P []
  | line {t : Bytes} {ls : List Line} (text : P t) (rest : Laid P ls) : Laid P (⟨0, t⟩ :: ls)
  | block {t c : Bytes} {body ls : List Line} (text : P t) (inner : Laid P body)
      (closes : isCloser c = true) (rest : Laid P (⟨0, c⟩ :: ls)) :
      Laid P (⟨0, t⟩ :: (deeper body ++ ⟨0, c⟩ :: ls))

def Closing (P : Bytes → Prop) (ls : List Line) : Prop :=
  ∃ c rest, ls ++ [⟨0, "end"⟩] = ⟨0, c⟩ :: rest ∧ isCloser c = true ∧ Laid P (⟨0, c⟩ :: rest)

section Laid

variable {P : Bytes → Prop} {ls ms body : List Line} {t : Bytes}

theorem Laid.append (hl : Laid P ls) (hm : Laid P ms) : Laid P (ls ++ ms) := by
  induction hl with
  | nil => exact hm
  | line ht _ ih => exact .line ht ih
  | block ht hbody hc _ _ ih =>
      rw [List.cons_append, List.append_assoc]
      exact .block ht hbody hc ih

theorem Laid.close (hbody : Laid P body) (ht : P t) (hbranches : Closing P ls) :
    Laid P (⟨0, t⟩ :: (deeper body ++ (ls ++ [⟨0, "end"⟩]))) := by
  obtain ⟨c, rest, heq, hc, hrest⟩ := hbranches
  rw [heq]
  exact .block ht hbody hc hrest

theorem closing_nil (hend : P "end") : Closing P [] :=
  ⟨"end", [], rfl, by decide, .line hend .nil⟩

theorem Closing.branch (hbranches : Closing P ls) (ht : P t) (hc : isCloser t = true)
    (hbody : Laid P body) : Closing P (⟨0, t⟩ :: (deeper body ++ ls)) := by
  refine ⟨t, deeper body ++ (ls ++ [⟨0, "end"⟩]), by simp, hc, hbody.close ht hbranches⟩

theorem Laid.head_depth {l : Line} (h : Laid P ls) (hl : l ∈ ls.head?) : l.depth = 0 := by
  cases h with
  | nil => cases hl
  | line | block =>
      cases hl
      rfl

theorem Laid.texts (h : Laid P ls) : ∀ l ∈ ls, P l.text := by
  induction h with
  | nil => simp
  | line ht _ ih => exact List.forall_mem_cons.mpr ⟨ht, ih⟩
  | block ht _ _ _ ihbody ih =>
      refine List.forall_mem_cons.mpr ⟨ht, fun l hl => ?_⟩
      rcases List.mem_append.mp hl with hl | hl
      · obtain ⟨k, hk, rfl⟩ := List.mem_map.mp hl
        exact ihbody k hk
      · exact ih l hl

/-! ### Depths -/

theorem mem_deeper {l : Line} (h : l ∈ deeper ls) : ∃ k ∈ ls, l = ⟨k.depth + 1, k.text⟩ := by
  obtain ⟨k, hk, rfl⟩ := List.mem_map.mp h
  exact ⟨k, hk, rfl⟩

/-- No depth is skipped. -/
theorem Laid.depths_below (h : Laid P ls) :
    ∀ l ∈ ls, ∀ d, d ≤ l.depth → ∃ k ∈ ls, k.depth = d := by
  induction h with
  | nil => simp
  | @line t ls _ _ ih =>
      intro l hl d hd
      rcases List.mem_cons.mp hl with rfl | hl
      · exact ⟨_, List.mem_cons_self, (Nat.le_zero.mp hd).symm⟩
      · obtain ⟨k, hk, hkd⟩ := ih l hl d hd
        exact ⟨k, List.mem_cons_of_mem _ hk, hkd⟩
  | @block t c body ls _ _ _ _ ihbody ih =>
      intro l hl d hd
      rcases List.mem_cons.mp hl with rfl | hl
      · exact ⟨_, List.mem_cons_self, (Nat.le_zero.mp hd).symm⟩
      rcases List.mem_append.mp hl with hl | hl
      · obtain ⟨k, hk, rfl⟩ := mem_deeper hl
        cases d with
        | zero => exact ⟨_, List.mem_cons_self, rfl⟩
        | succ d =>
            obtain ⟨j, hj, hjd⟩ := ihbody k hk d (Nat.le_of_succ_le_succ hd)
            refine ⟨⟨j.depth + 1, j.text⟩, ?_, congrArg (· + 1) hjd⟩
            exact List.mem_cons_of_mem _ (List.mem_append_left _ (List.mem_map_of_mem hj))
      · obtain ⟨k, hk, hkd⟩ := ih l hl d hd
        exact ⟨k, List.mem_cons_of_mem _ (List.mem_append_right _ hk), hkd⟩

/-- What follows a line: the next line is at most one level deeper, and if it is deeper, the first
line that is not, further on, is as deep as this one and closes what it opened. -/
def Continues (l : Line) (rest : List Line) : Prop :=
  ∀ k ∈ rest.head?, k.depth ≤ l.depth + 1 ∧
    (l.depth < k.depth → ∃ inner c after, rest = inner ++ c :: after ∧
      (∀ x ∈ inner, l.depth < x.depth) ∧ c.depth = l.depth ∧ isCloser c.text = true)

theorem continues_of_head {l : Line} (h : ∀ k ∈ ls.head?, k.depth = 0) : Continues l ls := by
  intro k hk
  have hdepth := h k hk
  exact ⟨by omega, fun hlt => absurd hlt (by omega)⟩

theorem Continues.deeper_append {l : Line} (h : Continues l ls) (hm : ∀ k ∈ ms.head?, k.depth = 0) :
    Continues ⟨l.depth + 1, l.text⟩ (deeper ls ++ ms) := by
  cases ls with
  | nil => exact continues_of_head hm
  | cons j ls =>
      intro k hk
      cases hk
      obtain ⟨hstep, hcloses⟩ := h j rfl
      refine ⟨Nat.succ_le_succ hstep, fun hlt => ?_⟩
      obtain ⟨inner, c, after, heq, hinner, hdepth, hc⟩ := hcloses (Nat.lt_of_succ_lt_succ hlt)
      refine ⟨deeper inner, ⟨c.depth + 1, c.text⟩, deeper after ++ ms, ?_, fun x hx => ?_,
        congrArg (· + 1) hdepth, hc⟩
      · simp [heq, deeper]
      · obtain ⟨y, hy, rfl⟩ := mem_deeper hx
        exact Nat.succ_lt_succ (hinner y hy)

/-- In lines laid in blocks, every line is followed by what it opens. -/
theorem Laid.continues (h : Laid P ls) :
    ∀ before l rest, ls = before ++ l :: rest → Continues l rest := by
  induction h with
  | nil => simp
  | line _ hrest ih =>
      rintro (_ | ⟨x, before⟩) l rest heq
      · cases heq
        exact continues_of_head fun k hk => hrest.head_depth hk
      · exact ih before l rest (List.cons.inj heq).2
  | @block t c body ls _ hbody hc hrest ihbody ih =>
      rintro (_ | ⟨x, before⟩) l rest heq
      · cases heq
        intro k hk
        refine ⟨?_, fun _ => ⟨deeper body, ⟨0, c⟩, ls, rfl, fun x hx => ?_, rfl, hc⟩⟩
        · cases body with
          | nil =>
              cases hk
              exact Nat.zero_le _
          | cons j body =>
              cases hk
              exact Nat.succ_le_succ (Nat.le_of_eq (hbody.head_depth rfl))
        · obtain ⟨y, -, rfl⟩ := mem_deeper hx
          exact Nat.succ_pos _
      · -- The line is one of the body, or one from the closing line on.
        rcases List.append_eq_append_iff.mp (List.cons.inj heq).2 with ⟨m, -, hm⟩ | ⟨m, hm, hrest'⟩
        · exact ih m l rest hm
        · cases m with
          | nil => exact ih [] l rest hrest'.symm
          | cons k m =>
              cases hrest'
              obtain ⟨b₁, b₂, rfl, -, hb₂⟩ := List.map_eq_append_iff.mp hm
              obtain ⟨j, b₃, rfl, rfl, rfl⟩ := List.map_eq_cons_iff.mp hb₂
              exact (ihbody b₁ j b₃ rfl).deeper_append fun _ hk => hrest.head_depth hk

end Laid

/-! ## Lines under one another -/

/-- The text of lines, each behind a line break and the indentation of its depth below a level. -/
inductive Stacked (o : Options) (level : Nat) : List Line → Bytes → Prop
  | nil : Stacked o level [] []
  | cons {l : Line} {ls : List Line} {spaces text : Bytes}
      (indent : margin o (level + l.depth) = pure spaces) (rest : Stacked o level ls text) :
      Stacked o level (l :: ls) (0x0a :: (spaces ++ l.text) ++ text)

/-- The text of a statement: its first line stands behind what is there. -/
inductive Shown (o : Options) (level : Nat) : List Line → Bytes → Prop
  | intro (head : Bytes) {ls : List Line} {text : Bytes} (rest : Stacked o level ls text) :
      Shown o level (⟨0, head⟩ :: ls) (head ++ text)

/-- Texts under one another, each behind a line break; empty ones are left out. -/
def hung (parts : List Bytes) : Bytes :=
  (parts.filter (· ≠ [])).flatMap (0x0a :: ·)

section Stacks

variable {o : Options} {level : Nat} {ls ms : List Line} {s t spaces : Bytes}

/-- A run behind a margin goes on from the same work. -/
theorem margin_bind {α : Type} {f : Bytes → Writer α} {w w' : Work} {a : α}
    (h : (margin o level >>= f) w = .ok (a, w')) :
    ∃ spaces, margin o level = pure spaces ∧ f spaces w = .ok (a, w') := by
  unfold margin at h ⊢
  dsimp only at h ⊢
  split at h
  · cases h
  · rename_i hwidth
    exact ⟨_, if_neg hwidth, h⟩

theorem margin_pure (h : margin o level = pure spaces) :
    (0 ≤ marginWidth o level ∧ marginWidth o level ≤ maxMargin) ∧
      spaces = List.replicate (marginWidth o level).toNat 0x20 := by
  have hrun := congrFun h { records := [], packages := [] }
  unfold margin at hrun
  split at hrun
  · cases hrun
  · rename_i hwidth
    cases hrun
    simp only [Bool.or_eq_true, decide_eq_true_eq, not_or, Int.not_lt] at hwidth
    exact ⟨hwidth, rfl⟩

theorem margin_spaces (h : margin o level = pure spaces) :
    spaces = List.replicate (marginWidth o level).toNat 0x20 :=
  (margin_pure h).2

theorem margin_zero (o : Options) : margin o 0 = pure [] := by
  simp [margin, marginWidth, maxMargin]

theorem Stacked.eq_nil (h : Stacked o level [] s) : s = [] := by
  cases h
  rfl

theorem Stacked.uncons {l : Line} (h : Stacked o level (l :: ls) s) :
    ∃ spaces t, margin o (level + l.depth) = pure spaces ∧ Stacked o level ls t ∧
      s = 0x0a :: (spaces ++ l.text) ++ t := by
  cases h with
  | cons hindent hrest => exact ⟨_, _, hindent, hrest, rfl⟩

theorem Stacked.indents (h : Stacked o level ls s) :
    ∀ l ∈ ls, ∃ spaces, margin o (level + l.depth) = pure spaces := by
  induction h with
  | nil => simp
  | cons hindent _ ih => exact List.forall_mem_cons.mpr ⟨⟨_, hindent⟩, ih⟩

theorem Stacked.append (hs : Stacked o level ls s) (ht : Stacked o level ms t) :
    Stacked o level (ls ++ ms) (s ++ t) := by
  induction hs with
  | nil => exact ht
  | cons hindent _ ih =>
      rw [List.cons_append, List.append_assoc]
      exact .cons hindent ih

theorem Stacked.deeper (h : Stacked o (level + 1) ls t) : Stacked o level (deeper ls) t := by
  induction h with
  | nil => exact .nil
  | @cons l ls spaces text hindent _ ih =>
      have hdepth : level + (l.depth + 1) = level + 1 + l.depth := by omega
      exact .cons (l := ⟨l.depth + 1, l.text⟩) (by rw [hdepth, hindent]) ih

theorem intercalate_cons (sep x : Bytes) (xs : List Bytes) :
    sep.intercalate (x :: xs) = x ++ xs.flatMap (sep ++ ·) := by
  induction xs generalizing x with
  | nil => simp
  | cons y ys ih => rw [List.intercalate_cons_cons, ih, List.flatMap_cons, List.append_assoc,
      List.append_assoc]

theorem hung_append (xs ys : List Bytes) : hung (xs ++ ys) = hung xs ++ hung ys := by
  simp [hung]

theorem hung_cons (x : Bytes) (xs : List Bytes) : hung (x :: xs) = hung [x] ++ hung xs :=
  hung_append [x] xs

theorem hung_singleton {x : Bytes} (h : x ≠ []) : hung [x] = 0x0a :: x := by
  simp [hung, h]

theorem joinLines_eq (parts : List Bytes) : joinLines parts = (hung parts).tail := by
  unfold joinLines joinNonempty hung
  cases parts.filter (· ≠ []) with
  | nil => rfl
  | cons x xs =>
      rw [intercalate_cons]
      rfl

theorem joinLines_head {x : Bytes} (h : x ≠ []) (parts : List Bytes) :
    joinLines (x :: parts) = x ++ hung parts := by
  rw [joinLines_eq, hung_cons, hung_singleton h]
  rfl

/-- Texts that are joined hang as they hang one by one. -/
theorem hung_intercalate {parts : List Bytes} (h : ∀ x ∈ parts, x ≠ []) :
    hung [(utf8 "\n").intercalate parts] = hung parts := by
  have hkept : parts.filter (· ≠ []) = parts :=
    List.filter_eq_self.mpr fun x hx => by simpa using h x hx
  cases parts with
  | nil => rfl
  | cons x xs =>
      have hx := h x List.mem_cons_self
      have hne : (utf8 "\n").intercalate (x :: xs) ≠ [] := by
        rw [intercalate_cons]
        simp [hx]
      rw [hung_singleton hne, intercalate_cons]
      unfold hung
      rw [hkept]
      rfl

theorem hung_filter (parts : List Bytes) : hung (parts.filter (· ≠ [])) = hung parts := by
  simp [hung]

theorem hung_joinLines (parts : List Bytes) : hung [joinLines parts] = hung parts := by
  unfold joinLines joinNonempty
  rw [hung_intercalate fun x hx => by simpa using (List.mem_filter.mp hx).2, hung_filter]

theorem stacked_line (hindent : margin o level = pure spaces) (ht : t ≠ []) :
    Stacked o level [⟨0, t⟩] (hung [spaces ++ t]) := by
  rw [hung_singleton (by simp [ht])]
  have hline := Stacked.cons (l := ⟨0, t⟩) hindent (.nil (o := o))
  rwa [List.append_nil] at hline

theorem shown_line (t : Bytes) : Shown o level [⟨0, t⟩] t := by
  have hshown : Shown o level [⟨0, t⟩] (t ++ []) := .intro t .nil
  rwa [List.append_nil] at hshown

theorem Shown.stacked (h : Shown o level ls t) (hindent : margin o level = pure spaces)
    (ht : t ≠ []) : Stacked o level ls (hung [spaces ++ t]) := by
  cases h with
  | intro head rest =>
      rw [hung_singleton (by simp [ht])]
      have hlines := Stacked.cons (l := ⟨0, head⟩) hindent rest
      simpa using hlines

/-- A head with lines below it that were joined. -/
theorem shown_joinLines {head : Bytes} {parts : List Bytes} (hne : head ≠ [])
    (h : Stacked o level ls (hung parts)) :
    Shown o level (⟨0, head⟩ :: ls) (joinLines (head :: parts)) := by
  rw [joinLines_head hne]
  exact .intro head h

theorem Shown.ne_nil {P : Bytes → Prop} (h : Shown o level ls t) (hlaid : Laid P ls)
    (hP : ∀ s, P s → s ≠ []) : t ≠ [] := by
  cases h with
  | intro head rest =>
      have hhead := hP head (hlaid.texts _ List.mem_cons_self)
      simp [hhead]

end Stacks

end RToJulia.Julia
