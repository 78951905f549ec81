import RToJulia.Proofs.Julia.Increments

/-! # Packages loaded by the programs of a session

The lines that load packages stand ahead of all else in a written program, in order
and each once. They load the package of every function that a call of the program
invokes, and no package but those of functions invoked in this program or in one
before it.
-/

namespace RToJulia.Julia

open Text Writer

/-! ## Lines that load packages -/

def usingLine (p : Package) : Bytes :=
  "using " ++ p.name

def inLineOrder (used : List Package) : List Package :=
  Package.all.filter (used.contains ·)

theorem mem_inLineOrder {used : List Package} {p : Package} : p ∈ inLineOrder used ↔ p ∈ used := by
  have hall : p ∈ Package.all := by cases p <;> decide
  simp [inLineOrder, hall]

/-- The lines increase: none comes twice, and each one before those that are greater. -/
theorem usingLines_increase (used : List Package) :
    ((inLineOrder used).map usingLine).Pairwise fun a b => inOrder a b = true ∧ a ≠ b := by
  have hall : Package.all.Pairwise fun p q =>
      inOrder (usingLine p) (usingLine q) = true ∧ usingLine p ≠ usingLine q := by decide
  exact List.pairwise_map.mpr (hall.filter _)

theorem header_eq_joinLines (used : List Package) :
    Package.header used = joinLines ((inLineOrder used).map usingLine) := by
  have hne : ∀ line ∈ (inLineOrder used).map usingLine, line ≠ [] := by
    intro line hline
    obtain ⟨p, -, rfl⟩ := List.mem_map.mp hline
    exact List.append_ne_nil_of_left_ne_nil (by decide) _
  unfold joinLines joinNonempty
  rw [List.filter_eq_self.mpr fun line hline => by simpa using hne line hline]
  rfl

/-- A written program is its lines one after the other, those that load packages first. -/
theorem Output.text_eq_lines (o : Options) (out : Output) :
    out.text o = joinLines ((inLineOrder out.packages).map usingLine ++
      (out.types.map (definitionText o) ++ out.lines)) := by
  unfold Output.text
  rw [List.cons_append, joinLines_cons, header_eq_joinLines, ← joinLines_append]

/-! ## Programs and their packages -/

/-- A call written in a program invokes a function of a package. -/
def CallsInto (o : Options) (ss : List Node) (p : Package) : Prop :=
  ∃ s ∈ ss, ∃ f args g, Written o s (.call f args) ∧ invoked? o f args = some g ∧
    Package.ofFunction? g = some p

theorem callsInto_iff {o : Options} {ss : List Node} {p : Package} :
    CallsInto o ss p ↔ ∃ s ∈ ss, LeftBy o s (.package p) := by
  simp only [CallsInto, leftBy_package]

namespace Session

variable {o : Options} {s s' : Session} {ss : List Node} {r : Except Unsupported Output}

/-- A program, written or refused, leaves the packages that were there and none beside those it
calls into; a written one leaves all of these and loads what it leaves. -/
theorem output_packages (h : s.output o ss = .ok (r, s')) :
    (∀ p ∈ s'.packages, p ∈ s.packages ∨ CallsInto o ss p) ∧
      ∀ out, r = .ok out → out.packages = s'.packages ∧
        ∀ p, CallsInto o ss p → p ∈ s'.packages := by
  obtain ⟨lines, w, hrun, hend⟩ := output_cases h
  obtain ⟨hgains, hclean⟩ := writeProgram_leaves o ss s.start lines w hrun
  have hwithin : ∀ p ∈ w.packages, p ∈ s.packages ∨ CallsInto o ss p := by
    intro p hp
    exact (hgains.within (.package p) hp).imp_right callsInto_iff.mpr
  rcases hend with ⟨n, -, rfl, rfl⟩ | ⟨hw, rfl, rfl⟩
  · exact ⟨hwithin, fun out hout => nomatch hout⟩
  · refine ⟨hwithin, fun out hout => ?_⟩
    cases hout
    exact ⟨rfl, fun p hp => (hclean hw).2 (.package p) (callsInto_iff.mp hp)⟩

end Session

/-- From a session on, a written program loads what it calls into, and beside it only what the
session had and what the programs before it call into. -/
theorem history_packages (o : Options) (s : Session) (programs : List (List Node))
    {before after : List Entry} {ss : List Node} {out : Output}
    (h : history o s programs = before ++ (ss, .ok out) :: after) :
    (∀ p, CallsInto o ss p → p ∈ out.packages) ∧
      ∀ p ∈ out.packages, p ∈ s.packages ∨ ∃ ss' ∈ before.map Prod.fst ++ [ss], CallsInto o ss' p := by
  induction programs generalizing s before with
  | nil => simp [history] at h
  | cons first programs ih =>
      rw [history] at h
      cases hout : s.output o first with
      | error reason => simp [hout] at h
      | ok result =>
          obtain ⟨r, s'⟩ := result
          obtain ⟨hwithin, hwritten⟩ := Session.output_packages hout
          simp only [hout] at h
          -- The program itself, or one that is written after it in the session it leaves.
          cases before with
          | nil =>
              cases h
              obtain ⟨hsame, hall⟩ := hwritten out rfl
              rw [hsame]
              refine ⟨hall, fun p hp => (hwithin p hp).imp_right fun hcalls => ⟨ss, by simp, hcalls⟩⟩
          | cons e before =>
              rw [List.cons_append, List.cons.injEq] at h
              obtain ⟨rfl, h⟩ := h
              obtain ⟨hall, hlater⟩ := ih s' h
              refine ⟨hall, fun p hp => ?_⟩
              rcases hlater p hp with hold | ⟨ss', hmem, hcalls⟩
              · exact (hwithin p hold).imp_right fun hcalls => ⟨first, by simp, hcalls⟩
              · exact .inr ⟨ss', List.mem_cons_of_mem _ hmem, hcalls⟩

/-- In every written program of a session the lines that load packages come first and increase.
They load the package of every function that a call written in the program invokes, and each
package is owed to a call of this program or of one before it, written or refused. The function
that a call invokes is the one that its text begins with. -/
theorem packages_loaded_for_calls (o : Options) (programs : List (List Node)) :
    returned o {} programs = (history o {} programs).map (fun e => e.2.map (Output.text o)) ∧
      (∀ before ss out after, history o {} programs = before ++ (ss, .ok out) :: after →
        ∃ loaded : List Package,
          out.text o = joinLines (loaded.map usingLine ++
            (out.types.map (definitionText o) ++ out.lines)) ∧
          (loaded.map usingLine).Pairwise (fun a b => inOrder a b = true ∧ a ≠ b) ∧
          (∀ p, CallsInto o ss p → p ∈ loaded) ∧
          ∀ p ∈ loaded, ∃ ss' ∈ before.map Prod.fst ++ [ss], CallsInto o ss' p) ∧
      ∀ f args level w text w', write o (.call f args) level w = .ok (text, w') →
        w'.unsupported = none → callLead o f args <+: text := by
  refine ⟨returned_eq_history o {} programs, fun before ss out after h => ?_,
    fun f args level w text w' h hw' => write_call_lead o h hw'⟩
  obtain ⟨hall, honly⟩ := history_packages o {} programs h
  refine ⟨inLineOrder out.packages, out.text_eq_lines o, usingLines_increase out.packages,
    fun p hp => mem_inLineOrder.mpr (hall p hp), fun p hp => ?_⟩
  rcases honly p (mem_inLineOrder.mp hp) with hold | howed
  · cases hold
  · exact howed

/-- After a refused call of `sd`, a table inside a printed line: the package of the table is owed to
this program, the other one to the refused program. -/
theorem packages_loaded_for_calls_after_refusal :
    ∃ before ss out, history {} {} (before.map Prod.fst ++ [ss]) = before ++ [(ss, .ok out)] ∧
      out.text {} = utf8 "using DataFrames\nusing Statistics\nprintln(DataFrame(a = [1]))" ∧
      ∃ loaded : List Package,
        out.text {} = joinLines (loaded.map usingLine ++
          (out.types.map (definitionText {}) ++ out.lines)) ∧
        (loaded.map usingLine).Pairwise (fun a b => inOrder a b = true ∧ a ≠ b) ∧
        (∀ p, CallsInto {} ss p → p ∈ loaded) ∧
        ∀ p ∈ loaded, ∃ ss' ∈ before.map Prod.fst ++ [ss], CallsInto {} ss' p := by
  let refused : Entry :=
    ([.exprStmt (.call "sd" [.var "x"]), .program []], .error ⟨.program []⟩)
  let last : List Node := [.exprStmt (.call "print" [.call "data.frame.a"
    [.named "a" (.call "c" [.int "1"])]])]
  let out : Output := ⟨[.statistics, .dataFrames], [], ["println(DataFrame(a = [1]))"]⟩
  have hrun : history {} {} ([refused].map Prod.fst ++ [last]) = [refused] ++ [(last, .ok out)] := rfl
  exact ⟨[refused], last, out, hrun, rfl,
    (packages_loaded_for_calls {} _).2.1 [refused] last out [] hrun⟩

end RToJulia.Julia
