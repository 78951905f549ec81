import RToJulia.Proofs.Julia.History
import RToJulia.Proofs.Julia.Replay

/-! # What a refused program leaves behind

A refused program leaves its packages in the session and nothing else. The programs
after it are refused or written as if it had never been there, with the same record
definitions and the same statements; only their headers also load the packages that
the refused program was the first to use.
-/

namespace RToJulia.Julia

open Text Writer

namespace Session

variable {o : Options} {s t : Session} {ss : List Node}

theorem output_halt {reason : Halt} (h : writeProgram o ss s.start = .error reason) :
    s.output o ss = .error reason := by
  have hrun : (writeProgram o ss).run s.start = .error reason := h
  simp [output, hrun, bind, Except.bind]

theorem output_refused {lines : List Bytes} {w : Work} {n : Node}
    (h : writeProgram o ss s.start = .ok (lines, w)) (hn : w.unsupported = some n) :
    s.output o ss = .ok (.error ⟨n⟩, afterRefusal w) := by
  have hrun : (writeProgram o ss).run s.start = .ok (lines, w) := h
  simp [output, hrun, hn, bind, Except.bind, pure, Except.pure]

/-- Without a refusal only the record definitions can still halt. -/
theorem output_unrefused {lines : List Bytes} {w : Work}
    (h : writeProgram o ss s.start = .ok (lines, w)) (hn : w.unsupported = none) :
    s.output o ss = (w.fresh.mapM (recordDefinition o) w).map fun _ =>
      (.ok ⟨w.packages, w.fresh, lines⟩, afterProgram w) := by
  have hrun : (writeProgram o ss).run s.start = .ok (lines, w) := h
  have hdefs : ∀ x, w.fresh.mapM (recordDefinition o) w = x →
      (w.fresh.mapM (recordDefinition o)).run w = x := fun _ hx => hx
  cases hd : w.fresh.mapM (recordDefinition o) w with
  | error reason => simp [output, hrun, hn, hdefs _ hd, bind, Except.bind, Except.map]
  | ok result =>
      simp [output, hrun, hn, hdefs _ hd, bind, Except.bind, Except.map, pure, Except.pure]

/-- `t` knows what `s` knows, and the packages `extra` beside. -/
structure Loads (extra : List Package) (s t : Session) : Prop where
  records : t.records = s.records
  packages : ∀ p, p ∈ t.packages ↔ p ∈ s.packages ∨ p ∈ extra

end Session

/-- Two ends of a program that differ only in the packages `extra` of the header. -/
def AlikeBut (extra : List Package) : Except Unsupported Output → Except Unsupported Output → Prop
  | .error u, .error v => v = u
  | .ok a, .ok b => b.types = a.types ∧ b.lines = a.lines ∧
      ∀ p, p ∈ b.packages ↔ p ∈ a.packages ∨ p ∈ extra
  | _, _ => False

inductive HistoriesAlike (extra : List Package) : List Entry → List Entry → Prop
  | nil : HistoriesAlike extra [] []
  | cons (ss : List Node) {r r' : Except Unsupported Output} {es es' : List Entry}
      (first : AlikeBut extra r r') (later : HistoriesAlike extra es es') :
      HistoriesAlike extra ((ss, r) :: es) ((ss, r') :: es')

/-- A program ends alike in two sessions that differ only in packages, and so do the sessions
after it. -/
theorem output_alike (o : Options) {extra : List Package} {s t : Session} (h : s.Loads extra t)
    (ss : List Node) :
    (∃ reason, s.output o ss = .error reason ∧ t.output o ss = .error reason) ∨
      ∃ r r' s' t', s.output o ss = .ok (r, s') ∧ t.output o ss = .ok (r', t') ∧
        AlikeBut extra r r' ∧ s'.Loads extra t' := by
  rcases (writeProgram_built o ss).replays none with ⟨reason, hrun⟩ | ⟨lines, notes, refused, hrun⟩
  · exact .inl ⟨reason, Session.output_halt (hrun _ rfl), Session.output_halt (hrun _ rfl)⟩
  have hs := hrun s.start rfl
  have ht := hrun t.start rfl
  obtain ⟨hrecords, hfresh⟩ :=
    Work.after_records (w := s.start) (v := t.start) h.records rfl notes refused
  have hpackages : ∀ p, p ∈ (t.start.after notes refused).packages ↔
      p ∈ (s.start.after notes refused).packages ∨ p ∈ extra := by
    intro p
    have hp := h.packages p
    rw [Work.mem_packages_after, Work.mem_packages_after, Session.start, Session.start, hp]
    exact or_right_comm
  generalize hw : s.start.after notes refused = w at hs hrecords hfresh hpackages
  generalize hv : t.start.after notes refused = v at ht hrecords hfresh hpackages
  have hwr : w.unsupported = refused := hw ▸ rfl
  have hvr : v.unsupported = refused := hv ▸ rfl
  cases refused with
  | some n =>
      refine .inr ⟨.error ⟨n⟩, .error ⟨n⟩, Session.afterRefusal w, Session.afterRefusal v,
        Session.output_refused hs hwr, Session.output_refused ht hvr, rfl, ?_, hpackages⟩
      simp only [Session.afterRefusal, hrecords, hfresh]
  | none =>
      have hdefs : Built (w.fresh.mapM (recordDefinition o)) :=
        .mapM fun _ _ => .bind (.margin o 1) fun _ => .pure _
      have houts := Session.output_unrefused hs hwr
      have houtt := Session.output_unrefused ht hvr
      rw [hfresh] at houtt
      rcases hdefs.replays none with ⟨reason, hhalt⟩ | ⟨texts, notes', refused', hdone⟩
      · rw [hhalt w hwr] at houts
        rw [hhalt v hvr] at houtt
        exact .inl ⟨reason, houts, houtt⟩
      · rw [hdone w hwr] at houts
        rw [hdone v hvr] at houtt
        exact .inr ⟨_, _, _, _, houts, houtt, ⟨rfl, rfl, hpackages⟩, ⟨hrecords, hpackages⟩⟩

/-! ## The programs after a refusal -/

theorem history_alike (o : Options) {extra : List Package} {s t : Session} (h : s.Loads extra t)
    (programs : List (List Node)) :
    HistoriesAlike extra (history o s programs) (history o t programs) := by
  induction programs generalizing s t with
  | nil => exact .nil
  | cons ss programs ih =>
      unfold history
      rcases output_alike o h ss with ⟨reason, hs, ht⟩ | ⟨r, r', s', t', hs, ht, halike, hnext⟩
      · rw [hs, ht]
        exact .nil
      · rw [hs, ht]
        exact .cons ss halike (ih hnext)

/-- The session after a refused program differs from the one before it only in packages. -/
theorem loads_of_refused {o : Options} {s s' : Session} {ss : List Node} {u : Unsupported}
    (h : s.output o ss = .ok (.error u, s')) : s.Loads s'.packages s' := by
  have hkept : ∀ p ∈ s.packages, p ∈ s'.packages := by
    intro p hp
    obtain ⟨lines, w, hrun, ⟨n, hn, hr, rfl⟩ | ⟨-, hr, -⟩⟩ := Session.output_cases h
    · rcases (writeProgram_built o ss).replays none with ⟨reason, hall⟩ | ⟨_, notes, refused, hall⟩
      · rw [hall s.start rfl] at hrun
        exact nomatch hrun
      · rw [hall s.start rfl] at hrun
        cases hrun
        exact (Work.mem_packages_after p s.start notes refused).mpr (.inl hp)
    · exact nomatch hr
  refine ⟨Session.records_of_refused h, fun p => ⟨.inr, ?_⟩⟩
  rintro (hp | hp)
  · exact hkept p hp
  · exact hp

/-- The lines that load packages tell which packages they load. -/
theorem mem_iff_of_header_eq {used used' : List Package}
    (h : Package.header used' = Package.header used) (p : Package) : p ∈ used' ↔ p ∈ used := by
  have hall : ∀ a b a' b' : Bool, List.intercalate (utf8 "\n")
      (([Package.dataFrames, .statistics].filter fun p => if p = .dataFrames then a' else b').map
        fun p => "using " ++ p.name) =
      List.intercalate (utf8 "\n")
        (([Package.dataFrames, .statistics].filter fun p => if p = .dataFrames then a else b).map
          fun p => "using " ++ p.name) → a' = a ∧ b' = b := by decide
  have hcontains : ∀ used : List Package, (used.contains ·) = fun p : Package =>
      if p = .dataFrames then used.contains .dataFrames else used.contains .statistics := by
    intro used
    funext p
    cases p <;> rfl
  unfold Package.header Package.all at h
  rw [hcontains used, hcontains used'] at h
  obtain ⟨hd, hs⟩ := hall _ _ _ _ h
  cases p with
  | dataFrames => simpa using hd
  | statistics => simpa using hs

theorem header_congr {used used' : List Package} (h : ∀ p, p ∈ used' ↔ p ∈ used) :
    Package.header used' = Package.header used := by
  unfold Package.header
  have hcontains : (used'.contains ·) = (used.contains ·) := by
    funext p
    rw [Bool.eq_iff_iff]
    simpa using h p
  rw [hcontains]

theorem Output.text_congr {o : Options} {a b : Output} (ht : b.types = a.types)
    (hl : b.lines = a.lines) (hp : ∀ p, p ∈ b.packages ↔ p ∈ a.packages) :
    b.text o = a.text o := by
  unfold Output.text
  rw [ht, hl, header_congr hp]

/-- Sessions with the same record types and the same packages return the same. -/
theorem returned_congr (o : Options) {s t : Session} (h : s.Loads [] t)
    (programs : List (List Node)) : returned o t programs = returned o s programs := by
  have hall := history_alike o h programs
  rw [returned_eq_history, returned_eq_history]
  generalize history o s programs = es at hall ⊢
  generalize history o t programs = es' at hall ⊢
  induction hall with
  | nil => rfl
  | @cons ss r r' _ _ halike _ ih =>
      rw [List.map_cons, List.map_cons, ih]
      congr 1
      cases r with
      | error u =>
          cases r' with
          | error v => exact congrArg Except.error halike
          | ok b => exact halike.elim
      | ok a =>
          cases r' with
          | error v => exact halike.elim
          | ok b =>
              obtain ⟨ht, hl, hp⟩ := halike
              exact congrArg Except.ok (Output.text_congr ht hl (by simpa using hp))

theorem joinLines_singleton (line : Bytes) : joinLines [line] = line := by
  unfold joinLines joinNonempty
  by_cases h : line = []
  · simp [h]
  · simp [h]

/-- An empty program is written as the lines that load the packages of its session. -/
theorem returned_empty (o : Options) (s : Session) :
    returned o s [[]] = [.ok (Package.header s.packages)] := by
  rw [← joinLines_singleton (Package.header s.packages)]
  rfl

/-- After a refused program, all programs are refused or written as without it, with the same
record definitions and statements, and load its packages as well. So a refused program makes no
difference exactly when all its packages are loaded already. -/
theorem refused_program_leaves_packages (o : Options) (s s' : Session) (ss : List Node)
    (u : Unsupported) (h : s.generate o ss = .ok (.error u, s')) :
    (∀ programs, HistoriesAlike s'.packages (history o s programs) (history o s' programs)) ∧
      ((∀ programs, returned o s' programs = returned o s programs) ↔
        ∀ p ∈ s'.packages, p ∈ s.packages) := by
  have hout : s.output o ss = .ok (.error u, s') := by
    rw [Session.generate_eq_output] at h
    cases hr : s.output o ss with
    | error reason =>
        rw [hr] at h
        exact nomatch h
    | ok result =>
        obtain ⟨r, t⟩ := result
        rw [hr] at h
        cases r with
        | ok out => exact nomatch h
        | error v =>
            cases h
            rfl
  have hloads := loads_of_refused hout
  refine ⟨history_alike o hloads, fun hsame p hp => ?_, fun hsub => returned_congr o ⟨hloads.records, ?_⟩⟩
  · have hempty := hsame [[]]
    rw [returned_empty, returned_empty] at hempty
    have hheader : Package.header s'.packages = Package.header s.packages := by
      simpa using hempty
    exact (mem_iff_of_header_eq hheader p).mp hp
  · intro p
    simp only [List.not_mem_nil, or_false]
    exact ⟨hsub p, fun hp => (hloads.packages p).mpr (.inl hp)⟩

/-- A refused record construction makes no difference. -/
theorem refused_record_leaves_nothing :
    ∃ u s', Session.generate {} {} [.assign "m" (.call "structure" [.int "1", .named "class"
        (.string "money")]), .exprStmt (.named "k" (.int "2"))] = .ok (.error u, s') ∧
      ∀ programs, returned {} s' programs = returned {} {} programs := by
  refine ⟨_, _, rfl, ?_⟩
  exact (refused_program_leaves_packages {} {} _ [.assign "m" (.call "structure" [.int "1",
    .named "class" (.string "money")]), .exprStmt (.named "k" (.int "2"))] _ rfl).2.mpr (by decide)

/-- A refused call of `mean` makes the next program load a package that it does not use. -/
theorem refused_mean_is_loaded :
    ∃ u s', Session.generate {} {} [.exprStmt (.call "mean" [.var "x"]),
        .exprStmt (.named "k" (.int "2"))] = .ok (.error u, s') ∧
      returned {} s' [[.assign "y" (.int "1")]] = [.ok "using Statistics\ny = 1"] ∧
      returned {} {} [[.assign "y" (.int "1")]] = [.ok "y = 1"] :=
  ⟨_, _, rfl, rfl, rfl⟩

end RToJulia.Julia
