import RToJulia.Proofs.Julia.Refusals

/-! # Programs in pieces

A session that writes programs one after the other writes what a fresh session makes
of all of them at once: the same statements, the same record definitions in the same
order, and in the end the same packages. What the session remembers only decides
which definitions a program still needs.
-/

namespace RToJulia.Julia

open Text Writer

/-! ## Lines of lines -/

/-- One text below the other; an empty one leaves no line. -/
def below (top bottom : Bytes) : Bytes :=
  if top = [] then bottom else if bottom = [] then top else top ++ utf8 "\n" ++ bottom

theorem joinLines_cons (line : Bytes) (lines : List Bytes) :
    joinLines (line :: lines) = below line (joinLines lines) := by
  unfold joinLines joinNonempty below
  by_cases hline : line = []
  · rw [List.filter_cons_of_neg (by simp [hline]), if_pos hline]
  · rw [List.filter_cons_of_pos (by simpa using hline), if_neg hline]
    cases hrest : lines.filter (· ≠ []) with
    | nil => rw [List.intercalate_singleton, if_pos List.intercalate_nil]
    | cons next rest =>
        have hmem : next ∈ lines.filter (· ≠ []) := hrest ▸ List.mem_cons_self
        have hnext : next ≠ [] := by simpa using (List.mem_filter.mp hmem).2
        have hjoined : (utf8 "\n").intercalate (next :: rest) ≠ [] := by
          cases rest with
          | nil => simpa using hnext
          | cons _ _ => simp [List.intercalate_cons_cons, hnext]
        rw [List.intercalate_cons_cons, if_neg hjoined]

theorem below_assoc (a b c : Bytes) : below (below a b) c = below a (below b c) := by
  unfold below
  by_cases ha : a = [] <;> by_cases hb : b = [] <;> by_cases hc : c = [] <;> simp [ha, hb, hc]

theorem joinLines_append (first second : List Bytes) :
    joinLines (first ++ second) = below (joinLines first) (joinLines second) := by
  induction first with
  | nil => rfl
  | cons line first ih => rw [List.cons_append, joinLines_cons, ih, joinLines_cons, below_assoc]

/-- Joining joined lines is joining all of them. -/
theorem joinLines_flatten (parts : List (List Bytes)) :
    joinLines (parts.map joinLines) = joinLines parts.flatten := by
  induction parts with
  | nil => rfl
  | cons part parts ih =>
      rw [List.map_cons, joinLines_cons, ih, List.flatten_cons, joinLines_append]

namespace Output

def loading (out : Output) : Bytes :=
  Package.header out.packages

def definitions (o : Options) (out : Output) : List Bytes :=
  out.types.map (definitionText o)

def statements (out : Output) : Bytes :=
  joinLines out.lines

theorem text_eq_parts (o : Options) (out : Output) :
    out.text o = joinLines [out.loading, joinLines (out.definitions o), out.statements] := by
  have hparts := joinLines_flatten [[out.loading], out.definitions o, out.lines]
  rw [List.map_cons, joinLines_singleton] at hparts
  have hflat : [[out.loading], out.definitions o, out.lines].flatten =
      out.loading :: out.definitions o ++ out.lines := by simp
  rw [hflat] at hparts
  exact hparts.symm

end Output

/-! ## One writer after another -/

/-- `v` is `w` with the record types `earlier` noted ahead of its own. -/
structure Work.Ahead (earlier : List Bytes) (w v : Work) : Prop where
  records : v.records = w.records
  fresh : v.fresh = earlier ++ w.fresh
  packages : v.packages = w.packages

theorem Work.Ahead.note {earlier : List Bytes} {w v : Work} (h : w.Ahead earlier v) (n : Note) :
    (w.note n).Ahead earlier (v.note n) := by
  cases n with
  | record type =>
      by_cases hknown : type ∈ w.records
      · have hknown' : type ∈ v.records := h.records ▸ hknown
        simpa only [Work.note, if_pos hknown, if_pos hknown'] using h
      · have hknown' : type ∉ v.records := h.records ▸ hknown
        simp only [Work.note, if_neg hknown, if_neg hknown']
        exact ⟨by simp [h.records], by simp [h.fresh], h.packages⟩
  | package p =>
      by_cases hknown : p ∈ w.packages
      · have hknown' : p ∈ v.packages := h.packages ▸ hknown
        simpa only [Work.note, if_pos hknown, if_pos hknown'] using h
      · have hknown' : p ∉ v.packages := h.packages ▸ hknown
        simp only [Work.note, if_neg hknown, if_neg hknown']
        exact ⟨h.records, h.fresh, by simp [h.packages]⟩

theorem Work.Ahead.after {earlier : List Bytes} {w v : Work} (h : w.Ahead earlier v)
    (notes : List Note) (refused : Option Node) :
    (w.after notes refused).Ahead earlier (v.after notes refused) := by
  have hfold : (notes.foldl Work.note w).Ahead earlier (notes.foldl Work.note v) := by
    induction notes generalizing w v with
    | nil => exact h
    | cons n notes ih => exact ih (h.note n)
  exact ⟨hfold.records, hfold.fresh, hfold.packages⟩

theorem writeProgram_append (o : Options) (first second : List Node) :
    writeProgram o (first ++ second) = (do
      let lines ← writeProgram o first
      let more ← writeProgram o second
      return lines ++ more) := by
  simp [writeProgram, List.mapM_append]

/-- A program is written alike where record types were noted ahead of it. -/
theorem writeProgram_ahead {o : Options} {ss : List Node} {earlier lines : List Bytes}
    {w v w' : Work} (h : w.Ahead earlier v) (hu : v.unsupported = w.unsupported)
    (hrun : writeProgram o ss w = .ok (lines, w')) :
    ∃ v', writeProgram o ss v = .ok (lines, v') ∧ v'.unsupported = w'.unsupported ∧
      w'.Ahead earlier v' := by
  rcases (writeProgram_built o ss).replays w.unsupported with
    ⟨reason, hall⟩ | ⟨_, notes, refused, hall⟩
  · rw [hall w rfl] at hrun
    exact nomatch hrun
  · rw [hall w rfl] at hrun
    cases hrun
    exact ⟨v.after notes refused, hall v hu, rfl, h.after notes refused⟩

/-! ## Definitions -/

def FieldFits (o : Options) : Prop :=
  ∀ w : Work, ∃ spaces, margin o 1 w = .ok (spaces, w)

theorem fieldFits_of_run {o : Options} {spaces : Bytes} {w w' : Work}
    (h : margin o 1 w = .ok (spaces, w')) : FieldFits o := by
  unfold margin at h
  split at h
  · exact nomatch h
  · rename_i hfits
    intro v
    refine ⟨List.replicate (marginWidth o 1).toNat 0x20, ?_⟩
    unfold margin
    rw [if_neg hfits]
    rfl

/-- Definitions are written exactly when there are none or their fields can be indented. -/
theorem definitions_written_iff (o : Options) (types : List Bytes) (w : Work) :
    (∃ texts w', types.mapM (recordDefinition o) w = .ok (texts, w')) ↔
      types = [] ∨ FieldFits o := by
  constructor
  · rintro ⟨texts, w', h⟩
    cases types with
    | nil => exact .inl rfl
    | cons type types =>
        rw [List.mapM_cons] at h
        obtain ⟨text, w₁, hdef, -⟩ := bind_run_cases h
        obtain ⟨spaces, w₂, hmargin, -⟩ := bind_run_cases hdef
        exact .inr (fieldFits_of_run hmargin)
  · rintro (rfl | hfits)
    · exact ⟨[], w, rfl⟩
    · induction types with
      | nil => exact ⟨[], w, rfl⟩
      | cons type types ih =>
          obtain ⟨spaces, hmargin⟩ := hfits w
          have hdef : recordDefinition o type w =
              .ok (joinLines ["struct " ++ type, spaces ++ recordField, "end"], w) :=
            bind_run_ok hmargin
          obtain ⟨texts, w', htexts⟩ := ih
          rw [List.mapM_cons, bind_run_ok hdef, bind_run_ok htexts]
          exact ⟨_, w', rfl⟩

/-! ## Sessions -/

/-- A written program, from the end of its writer. -/
theorem output_written_iff {o : Options} {s s' : Session} {ss : List Node} {out : Output} :
    s.output o ss = .ok (.ok out, s') ↔
      ∃ w, writeProgram o ss s.start = .ok (out.lines, w) ∧ w.unsupported = none ∧
        out.packages = w.packages ∧ out.types = w.fresh ∧ s' = Session.afterProgram w ∧
        (w.fresh = [] ∨ FieldFits o) := by
  constructor
  · intro h
    obtain ⟨lines, w, hrun, ⟨n, -, hr, -⟩ | ⟨hclean, hr, rfl⟩⟩ := Session.output_cases h
    · exact nomatch hr
    · cases hr
      refine ⟨w, hrun, hclean, rfl, rfl, rfl, (definitions_written_iff o w.fresh w).mp ?_⟩
      rw [Session.output_unrefused hrun hclean] at h
      cases hd : w.fresh.mapM (recordDefinition o) w with
      | error reason =>
          rw [hd] at h
          exact nomatch h
      | ok result => exact ⟨result.1, result.2, rfl⟩
  · rintro ⟨w, hrun, hclean, hpackages, htypes, rfl, hfits⟩
    obtain ⟨texts, w', hd⟩ := (definitions_written_iff o w.fresh w).mpr hfits
    rw [Session.output_unrefused hrun hclean, hd, ← hpackages, ← htypes]
    rfl

def lastPackages (before : List Package) (outs : List Output) : List Package :=
  (outs.getLast?.map Output.packages).getD before

theorem lastPackages_cons (before : List Package) (out : Output) (outs : List Output) :
    lastPackages before (out :: outs) = lastPackages out.packages outs := by
  cases outs with
  | nil => rfl
  | cons next outs => simp [lastPackages, List.getLast?_cons]

/-- Programs that are written one after the other are written as one program. -/
theorem output_flatten {o : Options} {s : Session} {programs : List (List Node)}
    {outs : List Output} (hlength : outs.length = programs.length)
    (h : history o s programs = programs.zip (outs.map .ok)) :
    ∃ s', s.output o programs.flatten =
      .ok (.ok ⟨lastPackages s.packages outs, outs.flatMap Output.types,
        outs.flatMap Output.lines⟩, s') := by
  suffices hrun : ∃ w,
      writeProgram o programs.flatten s.start = .ok (outs.flatMap Output.lines, w) ∧
      w.unsupported = none ∧ lastPackages s.packages outs = w.packages ∧
      outs.flatMap Output.types = w.fresh ∧ (w.fresh = [] ∨ FieldFits o) by
    obtain ⟨w, hw, hclean, hpackages, htypes, hfits⟩ := hrun
    exact ⟨_, output_written_iff.mpr ⟨w, hw, hclean, hpackages, htypes, rfl, hfits⟩⟩
  induction programs generalizing s outs with
  | nil =>
      obtain rfl : outs = [] := List.eq_nil_of_length_eq_zero hlength
      exact ⟨s.start, rfl, rfl, rfl, rfl, .inl rfl⟩
  | cons ss programs ih =>
      cases outs with
      | nil => simp at hlength
      | cons out outs =>
          rw [history] at h
          cases hout : s.output o ss with
          | error reason => simp [hout] at h
          | ok result =>
              obtain ⟨r, s'⟩ := result
              simp only [hout, List.map_cons, List.zip_cons_cons, List.cons.injEq, Prod.mk.injEq,
                true_and] at h
              obtain ⟨rfl, hlater⟩ := h
              obtain ⟨w, hw, hclean, hpackages, htypes, rfl, hfits⟩ := output_written_iff.mp hout
              obtain ⟨v, hv, hvclean, hvpackages, hvtypes, hvfits⟩ :=
                ih (Nat.succ.inj hlength) hlater
              -- The later programs start with no new types in the session, and with those of the
              -- first program in the concatenation.
              have hahead : (Session.afterProgram w).start.Ahead w.fresh w :=
                ⟨rfl, by simp [Session.start], rfl⟩
              obtain ⟨u, hu, huclean, hufresh⟩ := writeProgram_ahead hahead hclean hv
              refine ⟨u, ?_, huclean.trans hvclean, ?_, ?_, ?_⟩
              · rw [List.flatten_cons, writeProgram_append, bind_run_ok hw, bind_run_ok hu]
                rfl
              · rw [lastPackages_cons, hpackages, hufresh.packages]
                exact hvpackages
              · rw [List.flatMap_cons, htypes, hvtypes, hufresh.fresh]
              · rw [hufresh.fresh]
                rcases hfits with hnone | hfits
                · rcases hvfits with hvnone | hvfits
                  · exact .inl (by simp [hnone, hvnone])
                  · exact .inr hvfits
                · exact .inr hfits

/-- A session that returns a text for every program has written every program. -/
theorem history_of_returned {o : Options} {s : Session} {programs : List (List Node)}
    {texts : List Bytes} (hlength : texts.length = programs.length)
    (h : returned o s programs = texts.map .ok) :
    ∃ outs : List Output, outs.length = programs.length ∧
      history o s programs = programs.zip (outs.map .ok) ∧ texts = outs.map (Output.text o) := by
  induction programs generalizing s texts with
  | nil =>
      obtain rfl : texts = [] := List.eq_nil_of_length_eq_zero hlength
      exact ⟨[], rfl, rfl, rfl⟩
  | cons ss programs ih =>
      cases texts with
      | nil => simp at hlength
      | cons text texts =>
          rw [returned, Session.generate_eq_output] at h
          cases hout : s.output o ss with
          | error reason => simp [hout, Except.map] at h
          | ok result =>
              obtain ⟨r, s'⟩ := result
              simp only [hout, Except.map, List.map_cons, List.cons.injEq] at h
              obtain ⟨outs, hlen, hhistory, htexts⟩ := ih (Nat.succ.inj hlength) h.2
              cases r with
              | error u => cases h.1
              | ok out =>
                  refine ⟨out :: outs, by simp [hlen], ?_, ?_⟩
                  · simp [history, hout, hhistory]
                  · rw [List.map_cons, ← htexts, ← Except.ok.inj h.1]

/-- If a session writes all its programs, a fresh session writes their concatenation. Its statements
are those of the programs one below the other, its record definitions are theirs in the same
order, and it loads what the last program loads. -/
theorem programs_written_as_one (o : Options) (programs : List (List Node)) (texts : List Bytes)
    (hlength : texts.length = programs.length)
    (h : returned o {} programs = texts.map .ok) :
    ∃ (outs : List Output) (whole : Output) (s : Session),
      history o {} programs = programs.zip (outs.map .ok) ∧ texts = outs.map (Output.text o) ∧
      Session.generate o {} programs.flatten = .ok (.ok (whole.text o), s) ∧
      (∀ out ∈ whole :: outs, out.text o =
        joinLines [out.loading, joinLines (out.definitions o), out.statements]) ∧
      whole.lines = outs.flatMap Output.lines ∧
      whole.statements = joinLines (outs.map Output.statements) ∧
      whole.definitions o = outs.flatMap (Output.definitions o) ∧
      whole.loading = (outs.getLast?.map Output.loading).getD [] := by
  obtain ⟨outs, hlen, hhistory, htexts⟩ := history_of_returned hlength h
  obtain ⟨s, hwhole⟩ := output_flatten hlen hhistory
  refine ⟨outs, ⟨lastPackages [] outs, outs.flatMap Output.types, outs.flatMap Output.lines⟩, s,
    hhistory, htexts, ?_, fun out _ => out.text_eq_parts o, rfl, ?_, ?_, ?_⟩
  · rw [Session.generate_eq_output, hwhole]
    rfl
  · have hlines := joinLines_flatten (outs.map Output.lines)
    rw [List.map_map] at hlines
    exact hlines.symm
  · exact List.map_flatMap
  · unfold Output.loading lastPackages
    cases outs.getLast? <;> rfl

/-- A class that the first program defines is used in the third one, below a program that loads a
package. -/
theorem programs_written_as_one_money :
    ∃ (outs : List Output) (whole : Output) (s : Session),
      outs.map (Output.text {}) = [utf8 "struct Money\n    value\nend\nm = Money(1)",
        utf8 "using Statistics\ny = mean(x)", utf8 "using Statistics\nn = Money(y)"] ∧
      Session.generate {} {} [.assign "m" (.call "structure" [.int "1", .named "class"
          (.string "money")]), .assign "y" (.call "mean" [.var "x"]),
        .assign "n" (.call "structure" [.var "y", .named "class" (.string "Money")])] =
        .ok (.ok (whole.text {}), s) ∧
      whole.statements = joinLines (outs.map Output.statements) ∧
      whole.definitions {} = outs.flatMap (Output.definitions {}) ∧
      whole.loading = (outs.getLast?.map Output.loading).getD [] := by
  obtain ⟨outs, whole, s, -, htexts, hwhole, -, -, hstatements, hdefinitions, hloading⟩ :=
    programs_written_as_one {} [[.assign "m" (.call "structure" [.int "1", .named "class"
        (.string "money")])], [.assign "y" (.call "mean" [.var "x"])],
      [.assign "n" (.call "structure" [.var "y", .named "class" (.string "Money")])]]
      [utf8 "struct Money\n    value\nend\nm = Money(1)", utf8 "using Statistics\ny = mean(x)",
        utf8 "using Statistics\nn = Money(y)"] rfl rfl
  exact ⟨outs, whole, s, htexts.symm, hwhole, hstatements, hdefinitions, hloading⟩

end RToJulia.Julia
