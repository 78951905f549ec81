import RToJulia.Proofs.Julia.WriteNotes

/-! # Record types over a session

Programs are written in a session one after the other, some of them refused. A
written program defines the record types that it uses and that no written program
before it has defined. What a refused program was the first to use stays undefined.
-/

namespace RToJulia.Julia

open Text Writer

structure Output where
  packages : List Package
  /-- The record types defined ahead of the statements. -/
  types : List Bytes
  lines : List Bytes

def definitionText (o : Options) (type : Bytes) : Bytes :=
  joinLines ["struct " ++ type, List.replicate (marginWidth o 1).toNat 0x20 ++ recordField, "end"]

def Output.text (o : Options) (out : Output) : Bytes :=
  joinLines (Package.header out.packages :: out.types.map (definitionText o) ++ out.lines)

theorem recordDefinition_run {o : Options} {type text : Bytes} {w w' : Work}
    (h : recordDefinition o type w = .ok (text, w')) : text = definitionText o type := by
  obtain ⟨m, w₁, hm, hrest⟩ := bind_run_cases h
  unfold margin at hm
  split at hm
  · exact nomatch hm
  · cases hm
    cases hrest
    rfl

theorem definitions_run {o : Options} {types definitions : List Bytes} {w w' : Work}
    (h : types.mapM (recordDefinition o) w = .ok (definitions, w')) :
    definitions = types.map (definitionText o) := by
  induction types generalizing definitions w' w with
  | nil =>
      rw [List.mapM_nil] at h
      cases h
      rfl
  | cons type types ih =>
      rw [List.mapM_cons] at h
      obtain ⟨text, w₁, hhead, hrest⟩ := bind_run_cases h
      obtain ⟨texts, w₂, htail, hpure⟩ := bind_run_cases hrest
      cases hpure
      rw [recordDefinition_run hhead, ih htail, List.map_cons]

namespace Session

def output (o : Options) (s : Session) (statements : List Node) :
    Except Halt (Except Unsupported Output × Session) := do
  let (lines, w) ← (writeProgram o statements).run s.start
  match w.unsupported with
  | some n => return (.error ⟨n⟩, afterRefusal w)
  | none =>
      let _ ← (w.fresh.mapM (recordDefinition o)).run w
      return (.ok ⟨w.packages, w.fresh, lines⟩, afterProgram w)

/-- A session writes the texts of its outputs. -/
theorem generate_eq_output (o : Options) (s : Session) (ss : List Node) :
    s.generate o ss = (s.output o ss).map fun (r, s') => (r.map (Output.text o), s') := by
  cases hrun : writeProgram o ss s.start with
  | error reason =>
      have hrun' : (writeProgram o ss).run s.start = .error reason := hrun
      rw [generate_halt hrun]
      simp [output, hrun', bind, Except.bind, Except.map]
  | ok result =>
      obtain ⟨lines, w⟩ := result
      have hrun' : (writeProgram o ss).run s.start = .ok (lines, w) := hrun
      cases hn : w.unsupported with
      | some n =>
          rw [generate_refused hrun hn]
          simp [output, hrun', hn, bind, Except.bind, Except.map, pure, Except.pure]
      | none =>
          cases hd : w.fresh.mapM (recordDefinition o) w with
          | error reason =>
              have hd' : (w.fresh.mapM (recordDefinition o)).run w = .error reason := hd
              rw [generate_definition_halt hrun hn hd]
              simp [output, hrun', hn, hd', bind, Except.bind, Except.map]
          | ok result =>
              obtain ⟨definitions, w'⟩ := result
              have hd' : (w.fresh.mapM (recordDefinition o)).run w = .ok (definitions, w') := hd
              rw [generate_written hrun hn hd, definitions_run hd]
              simp [output, hrun', hn, hd', bind, Except.bind, Except.map, pure, Except.pure,
                Output.text]

end Session

/-! ## One program -/

/-- The record types of the nodes that are written with a program. -/
def UsedBy (o : Options) (ss : List Node) (type : Bytes) : Prop :=
  ∃ s ∈ ss, Uses o s type

theorem writeProgram_leaves (o : Options) (ss : List Node) :
    Leaves (fun _ => True) (fun k => ∃ s ∈ ss, LeftBy o s k) (writeProgram o ss) :=
  Leaves.congr (.seq (.mapM fun s _ => (write_traced o s 0).leaves) fun _ => .pure fun _ => trivial)
    (by simp)

theorem writeProgram_notes (o : Options) (ss : List Node) :
    Notes (fun _ => True) (UsedBy o ss) (writeProgram o ss) := by
  intro w lines w' hrun
  obtain ⟨hgrows, hclean⟩ := (writeProgram_leaves o ss).notes w lines w' hrun
  refine ⟨hgrows, fun hw' => ⟨trivial, fun type => ?_⟩⟩
  simp only [(hclean hw').2, UsedBy, uses_iff_leftBy]

namespace Session

variable {o : Options} {s s' : Session} {ss : List Node}

/-- A program that returns was refused or written, by what its writer ended with. -/
theorem output_cases {r : Except Unsupported Output} (h : s.output o ss = .ok (r, s')) :
    ∃ lines w, writeProgram o ss s.start = .ok (lines, w) ∧
      ((∃ n, w.unsupported = some n ∧ r = .error ⟨n⟩ ∧ s' = afterRefusal w) ∨
        w.unsupported = none ∧ r = .ok ⟨w.packages, w.fresh, lines⟩ ∧ s' = afterProgram w) := by
  unfold output at h
  cases hrun : (writeProgram o ss).run s.start with
  | error reason =>
      rw [hrun] at h
      exact nomatch h
  | ok result =>
      obtain ⟨lines, w⟩ := result
      rw [hrun] at h
      refine ⟨lines, w, hrun, ?_⟩
      cases hn : w.unsupported with
      | some n =>
          simp only [bind, Except.bind, hn] at h
          cases h
          exact .inl ⟨n, rfl, rfl, rfl⟩
      | none =>
          simp only [bind, Except.bind, hn] at h
          split at h
          · exact nomatch h
          · cases h
            exact .inr ⟨rfl, rfl, rfl⟩

/-- A refused program leaves the record types as they were. -/
theorem records_of_refused {u : Unsupported} (h : s.output o ss = .ok (.error u, s')) :
    s'.records = s.records := by
  obtain ⟨lines, w, hrun, ⟨n, hn, hr, rfl⟩ | ⟨-, hr, -⟩⟩ := output_cases h
  · obtain ⟨new, hrecords, hfresh, -, hnew⟩ := (writeProgram_notes o ss _ _ _ hrun).1.added
    have hkept : s.records.filter (· ∉ new) = s.records :=
      List.filter_eq_self.mpr fun type ht => by simpa using fun hmem => hnew type hmem ht
    have hgone : new.filter (· ∉ new) = [] := by simp
    have hfresh : w.fresh = new := hfresh
    have hrecords : w.records = s.records ++ new := hrecords
    calc (afterRefusal w).records = (s.records ++ new).filter (· ∉ new) := by
          simp only [afterRefusal, hrecords, hfresh]
      _ = s.records.filter (· ∉ new) ++ new.filter (· ∉ new) := List.filter_append ..
      _ = s.records := by rw [hkept, hgone, List.append_nil]
  · exact nomatch hr

/-- A written program defines what it uses and the session does not know. -/
theorem records_of_written {out : Output} (h : s.output o ss = .ok (.ok out, s')) :
    s'.records = s.records ++ out.types ∧ out.types.Nodup ∧
      ∀ type, type ∈ out.types ↔ UsedBy o ss type ∧ type ∉ s.records := by
  obtain ⟨lines, w, hrun, ⟨n, -, hr, -⟩ | ⟨hclean, hr, rfl⟩⟩ := output_cases h
  · exact nomatch hr
  · cases hr
    obtain ⟨hgrows, hnotes⟩ := writeProgram_notes o ss _ _ _ hrun
    obtain ⟨new, hrecords, hfresh, hnodup, hnew⟩ := hgrows.added
    have hfresh : w.fresh = new := hfresh
    have hmem := (hnotes hclean).2
    rw [hrecords] at hmem
    refine ⟨by rw [afterProgram, hrecords, hfresh]; rfl, hfresh ▸ hnodup, fun type => ?_⟩
    rw [hfresh]
    constructor
    · intro ht
      have hold : type ∉ s.records := hnew type ht
      exact ⟨((hmem type).mp (List.mem_append_right _ ht)).resolve_left hold, hold⟩
    · rintro ⟨hused, hold⟩
      exact (List.mem_append.mp ((hmem type).mpr (.inr hused))).resolve_left hold

end Session

/-! ## All programs of a session -/

abbrev Entry := List Node × Except Unsupported Output

/-- The programs of a session with what became of each, up to the first one that halts. -/
def history (o : Options) : Session → List (List Node) → List Entry
  | _, [] => []
  | s, ss :: rest =>
      match s.output o ss with
      | .ok (r, s') => (ss, r) :: history o s' rest
      | .error _ => []

def returned (o : Options) : Session → List (List Node) → List (Except Unsupported Bytes)
  | _, [] => []
  | s, ss :: rest =>
      match s.generate o ss with
      | .ok (r, s') => r :: returned o s' rest
      | .error _ => []

def Entry.types : Entry → List Bytes
  | (_, .ok out) => out.types
  | (_, .error _) => []

def definedTypes (entries : List Entry) : List Bytes :=
  entries.flatMap Entry.types

/-- After a program the session knows what it knew and what the program defines. -/
theorem output_records {o : Options} {s s' : Session} {ss : List Node}
    {r : Except Unsupported Output} (h : s.output o ss = .ok (r, s')) (hs : s.records.Nodup) :
    s'.records = s.records ++ Entry.types (ss, r) ∧ s'.records.Nodup := by
  cases r with
  | error u =>
      have hsame := Session.records_of_refused h
      exact ⟨by simpa [Entry.types] using hsame, hsame ▸ hs⟩
  | ok out =>
      obtain ⟨hrecords, hnodup, htypes⟩ := Session.records_of_written h
      refine ⟨hrecords, ?_⟩
      rw [hrecords]
      refine List.nodup_append.mpr ⟨hs, hnodup, ?_⟩
      rintro type hold _ hnew rfl
      exact ((htypes type).mp hnew).2 hold

theorem returned_eq_history (o : Options) (s : Session) (programs : List (List Node)) :
    returned o s programs = (history o s programs).map fun (_, r) => r.map (Output.text o) := by
  induction programs generalizing s with
  | nil => rfl
  | cons ss programs ih =>
      rw [returned, history, Session.generate_eq_output]
      cases s.output o ss with
      | error reason => rfl
      | ok result =>
          simp only [Except.map, List.map_cons, ih]

/-- From a session on, a type is defined by the first written program that uses it. -/
theorem history_types (o : Options) (s : Session) (programs : List (List Node))
    (hs : s.records.Nodup) :
    (s.records ++ definedTypes (history o s programs)).Nodup ∧
      ∀ before ss out after, history o s programs = before ++ (ss, .ok out) :: after →
        ∀ type, type ∈ out.types ↔
          UsedBy o ss type ∧ type ∉ s.records ++ definedTypes before := by
  induction programs generalizing s with
  | nil => exact ⟨by simpa [history, definedTypes] using hs, by simp [history]⟩
  | cons ss programs ih =>
      rw [history]
      cases hout : s.output o ss with
      | error reason => exact ⟨by simpa [definedTypes] using hs, by simp⟩
      | ok result =>
          obtain ⟨r, s'⟩ := result
          obtain ⟨hrecords, hs'⟩ := output_records hout hs
          obtain ⟨hnodup, hlater⟩ := ih s' hs'
          rw [hrecords, List.append_assoc] at hnodup
          refine ⟨hnodup, fun before ss₁ out after heq type => ?_⟩
          -- The program itself, or one that is written after it in the session it leaves.
          cases before with
          | nil =>
              cases heq
              simpa [definedTypes] using (Session.records_of_written hout).2.2 type
          | cons e before =>
              rw [List.cons_append, List.cons.injEq] at heq
              obtain ⟨rfl, heq⟩ := heq
              have htypes := hlater before ss₁ out after heq type
              rwa [hrecords, List.append_assoc] at htypes

/-- Over all programs of a session, written and refused in any order, no record type is defined
twice, and a written program defines exactly the types that it uses and that no written program
before it defines. The type that a construction or a method uses is the one that its text names. -/
theorem records_defined_once (o : Options) (programs : List (List Node)) :
    returned o {} programs = (history o {} programs).map (fun (_, r) => r.map (Output.text o)) ∧
      (definedTypes (history o {} programs)).Nodup ∧
      (∀ before ss out after, history o {} programs = before ++ (ss, .ok out) :: after →
        ∀ type, type ∈ out.types ↔ UsedBy o ss type ∧ type ∉ definedTypes before) ∧
      ∀ n type level w text w', ownRecord? n = some type → write o n level w = .ok (text, w') →
        w'.unsupported = none → NamesRecord type text := by
  obtain ⟨hnodup, htypes⟩ := history_types o {} programs .nil
  exact ⟨returned_eq_history o {} programs, hnodup, htypes,
    fun n type level w text w' hn h hw' => write_names_record o hn h hw'⟩

/-- A class first met in a refused program is defined by the next one, where it stands in a
body; a method for another spelling of it does not define it again. -/
theorem records_defined_once_after_refusal :
    ∃ before ss out, history {} {} (before.map Prod.fst ++ [ss]) = before ++ [(ss, .ok out)] ∧
      definedTypes before = [utf8 "Pair"] ∧ out.types = [utf8 "Box"] ∧
      (∀ type, type ∈ out.types ↔ UsedBy {} ss type ∧ type ∉ definedTypes before) ∧
      NamesRecord "Pair" "Base.:(+)(a::Pair, b::Pair) = nothing" := by
  let refused : Entry :=
    ([.assign "p" (.call "structure" [.int "1", .named "class" (.string "pair")]), .program []],
      .error ⟨.program []⟩)
  let written : Entry :=
    ([.function "f" [] (some
        [.assign "q" (.call "structure" [.int "2", .named "class" (.string "Pair")])])],
      .ok ⟨[], ["Pair"], ["function f()\n    q = Pair(2)\nend"]⟩)
  let last : List Node := [.operator "+" "PAIR" ["a", "b"] (some []),
    .assign "r" (.call "structure" [.named "class" (.string "box")])]
  let out : Output :=
    ⟨[], ["Box"], ["Base.:(+)(a::Pair, b::Pair) = nothing", "r = Box(nothing)"]⟩
  have hrun : history {} {} ([refused, written].map Prod.fst ++ [last]) =
      [refused, written] ++ [(last, .ok out)] := rfl
  obtain ⟨-, -, hdefined, hnamed⟩ :=
    records_defined_once {} ([refused, written].map Prod.fst ++ [last])
  exact ⟨[refused, written], last, out, hrun, rfl, rfl,
    hdefined [refused, written] last out [] hrun,
    hnamed (.operator "+" "PAIR" ["a", "b"] (some [])) _ 0 { records := [], packages := [] } _ _
      rfl rfl rfl⟩

end RToJulia.Julia
