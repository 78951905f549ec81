import RToJulia.Proofs.Files.Listing

/-! # Batches

A batch writes the Julia files of the accepted sources of a directory, in order, and
reports the refused ones.  Two sources that differ in the case of their extension
have one Julia file, and the lower-case one is written last.  Refused sources leave
no other trace: without them the batch writes the same.
-/

namespace RToJulia

open Text RToJulia.Path

namespace Disk

/-- A disk on which the sources of a directory stand with their answers, and on which a directory
for the Julia files of the accepted ones can be made and written to. -/
structure Batch (d : Disk) (o : Options) (directory out : Bytes)
    (answer : Bytes → Except TranslateFault Bytes) (sources : List Bytes) : Prop where
  proper : d.Proper
  listed : ∃ names, d.list directory = .ok names ∧ sources = sourcePaths directory names
  answered : ∀ p ∈ sources, ∀ source, d.read p = .ok source → translate o source = .ok (answer p)
  creatable : (d.makeDirectories out).1 = .ok ()
  writable : ∀ p ∈ sources, ∀ text, answer p = .ok text →
    (d.makeDirectories out).2.status (outputPath out p) ≠ .ok .directory

variable {d : Disk} {o : Options} {directory out : Bytes}
  {answer : Bytes → Except TranslateFault Bytes} {sources : List Bytes}

theorem Batch.exists_place (h : d.Batch o directory out answer sources) :
    ∃ place, d.locate directory = .ok place ∧ d.entry? place = some .directory ∧
      sources = sourcePaths directory (d.children place) := by
  obtain ⟨names, hlist, hsources⟩ := h.listed
  obtain ⟨place, hplace, hdir, rfl⟩ := list_ok.mp hlist
  exact ⟨place, hplace, hdir, hsources⟩

theorem Batch.pairwise (h : d.Batch o directory out answer sources) :
    sources.Pairwise fun p q => inOrder p q = true := by
  obtain ⟨names, -, rfl⟩ := h.listed
  exact pairwise_sourcePaths directory names

/-- Every listed source stands under its name. -/
theorem Batch.exists_source (h : d.Batch o directory out answer sources) {p : Bytes}
    (hp : p ∈ sources) : ∃ above name source,
      d.locate directory = .ok above ∧ p = lead directory ++ name ∧
        d.HasSource p above name source ∧ translate o source = .ok (answer p) := by
  obtain ⟨place, hplace, hdir, rfl⟩ := h.exists_place
  obtain ⟨name, source, hlead, hsource⟩ := h.proper.listed hplace hdir hp
  exact ⟨place, name, source, hplace, hlead, hsource, h.answered p hp source hsource.read⟩

theorem Batch.ready (h : d.Batch o directory out answer sources) {made : Disk} {place : Location}
    (hopens : d.Opens out made place) : d.Ready o out made place answer sources := by
  refine ⟨hopens, fun p hp => ?_, fun item hitem => ?_⟩
  · obtain ⟨above, name, source, -, -, hsource⟩ := h.exists_source hp
    exact ⟨above, name, source, hsource⟩
  · obtain ⟨⟨p, text⟩, ha, rfl⟩ := List.mem_map.mp hitem
    obtain ⟨hp, hanswer⟩ := mem_accepted.mp ha
    obtain ⟨above, name, source, -, -, hsource, -⟩ := h.exists_source hp
    have hlocated := hopens.locate_join
      (isFileName_outputName hsource.isFileName hsource.isSourceName)
    have hwritable := h.writable p hp text hanswer
    rw [hopens.makes, hsource.outputPath_eq] at hwritable
    intro hdir
    rw [hsource.base_eq] at hdir
    exact hwritable (status_ok.mpr ⟨_, hlocated, hdir⟩)

end Disk

theorem listSources_run {directory : Bytes} {w : World} {names : List (Bytes × Bool)}
    (hlist : w.disk.list directory = .ok names) (hsome : sourcePaths directory names ≠ []) :
    (World.host.listSources directory).run w = .ok (.ok (sourcePaths directory names), w) := by
  have hfind : (World.host.findSources directory).run w =
      .ok (.ok (sourcePaths directory names), w) := by
    have hget : (World.host.list directory).run w = .ok (.ok names, w) := by
      rw [← hlist]
      rfl
    unfold Host.findSources
    rw [run_bind_ok hget]
    rfl
  unfold Host.listSources
  rw [run_bind_ok hfind]
  cases h : sourcePaths directory names with
  | nil => exact absurd h hsome
  | cons p paths => rfl

/-- What a batch writes and reports. -/
theorem translateAll_run {o : Options} {directory out : Bytes}
    {answer : Bytes → Except TranslateFault Bytes} {sources : List Bytes} {w : World} {made : Disk}
    {place : Location} (h : w.disk.Batch o directory out answer sources) (hsome : sources ≠ [])
    (hopens : w.disk.Opens out made place) :
    ∃ err, (World.host.translateAll o directory out).run w =
      .ok (.ok ((accepted answer sources).map fun a => outputPath out a.1,
        (refused answer sources).map fun r => .translate r.1 r.2),
        { w with disk := w.disk.delivered made place (Disk.juliaFiles answer sources), err }) := by
  obtain ⟨err, hrun⟩ := translateEach_run (h.ready hopens)
  obtain ⟨names, hlist, rfl⟩ := h.listed
  refine ⟨err, ?_⟩
  unfold Host.translateAll
  rw [run_bind_ok (listSources_run hlist hsome), run_bind_ok hrun]
  rfl

/-! ## The Julia files of a batch -/

/-- Of the members of a list that agree with one of them, there is a last one. -/
theorem exists_last_alike {α β : Type} (f : α → β) {l : List α} {x : α} (h : x ∈ l) :
    ∃ before y after, l = before ++ y :: after ∧ f y = f x ∧ ∀ z ∈ after, f z ≠ f x := by
  induction l generalizing x with
  | nil => cases h
  | cons a l ih =>
      by_cases hlater : ∃ z ∈ l, f z = f x
      · obtain ⟨z, hz, hzx⟩ := hlater
        obtain ⟨before, y, after, rfl, hy, hafter⟩ := ih hz
        exact ⟨a :: before, y, after, rfl, hy.trans hzx, fun u hu => hzx ▸ hafter u hu⟩
      · rcases List.mem_cons.mp h with rfl | hx
        · exact ⟨[], x, l, rfl, rfl, fun z hz hzx => hlater ⟨z, hz, hzx⟩⟩
        · exact absurd ⟨x, hx, rfl⟩ hlater

theorem append_upper_ne_lower (front front' : Bytes) :
    front ++ utf8 ".R" ≠ front' ++ utf8 ".r" := by
  intro heq
  exact absurd (List.append_inj' heq rfl).2 (by decide)

theorem inOrder_lower_upper (front : Bytes) :
    inOrder (front ++ utf8 ".r") (front ++ utf8 ".R") = false := by
  rw [inOrder_append]
  rfl

namespace Disk

variable {d made : Disk} {o : Options} {directory out : Bytes} {place : Location}
  {answer : Bytes → Except TranslateFault Bytes} {sources : List Bytes}

/-- A Julia file has the text of the last accepted source with its name. -/
theorem Batch.read_last (h : d.Batch o directory out answer sources)
    (hopens : d.Opens out made place) {p q text : Bytes} {before after : List (Bytes × Bytes)}
    (hp : p ∈ sources) (hsplit : accepted answer sources = before ++ (q, text) :: after)
    (hname : outputName (base q) = outputName (base p))
    (hlast : ∀ a ∈ after, outputName (base a.1) ≠ outputName (base p)) :
    (d.delivered made place (juliaFiles answer sources)).read (outputPath out p) =
      .ok (text ++ utf8 "\n") := by
  obtain ⟨above, name, source, -, -, hsource, -⟩ := h.exists_source hp
  have hfiles : juliaFiles answer sources =
      (before.map fun a => (outputName (base a.1), a.2 ++ utf8 "\n")) ++
        (outputName (base q), text ++ utf8 "\n") ::
          after.map fun a => (outputName (base a.1), a.2 ++ utf8 "\n") := by
    unfold juliaFiles
    rw [hsplit, List.map_append, List.map_cons]
  have hdelivered : d.delivered made place (juliaFiles answer sources) =
      made.filled place (juliaFiles answer sources) := if_neg (by simp [hfiles])
  have hextends := extends_filled (h.ready hopens).free
  have hlocated := hextends.locate (hopens.locate_join
    (isFileName_outputName hsource.isFileName hsource.isSourceName))
  rw [← hsource.outputPath_eq, ← hsource.base_eq, ← hname] at hlocated
  rw [hdelivered]
  refine read_ok.mpr (status_ok.mpr ⟨_, hlocated, ?_⟩)
  rw [hfiles]
  refine entry?_filled_last fun later hlater => ?_
  obtain ⟨a, ha, rfl⟩ := List.mem_map.mp hlater
  exact fun heq => hlast a ha (heq.trans hname)

theorem Batch.pairwise_accepted (h : d.Batch o directory out answer sources) :
    (accepted answer sources).Pairwise fun a b => inOrder a.1 b.1 = true := by
  have hpaths := h.pairwise.filter fun p => (answer p).isOk
  rw [← accepted_paths, List.pairwise_map] at hpaths
  exact hpaths

/-- The last accepted source with the name of a Julia file is the greatest one. -/
theorem Batch.exists_last (h : d.Batch o directory out answer sources)
    (hopens : d.Opens out made place) {p text : Bytes} (hp : p ∈ sources)
    (hanswer : answer p = .ok text) :
    ∃ q ∈ sources, ∃ text', answer q = .ok text' ∧ outputName (base q) = outputName (base p) ∧
      (∀ r ∈ sources, ∀ t, answer r = .ok t → outputName (base r) = outputName (base p) →
        inOrder r q = true) ∧
      (d.delivered made place (juliaFiles answer sources)).read (outputPath out p) =
        .ok (text' ++ utf8 "\n") := by
  obtain ⟨before, ⟨q, text'⟩, after, hsplit, hname, hlast⟩ :=
    exists_last_alike (fun a : Bytes × Bytes => outputName (base a.1))
      (mem_accepted.mpr ⟨hp, hanswer⟩)
  have hq : (q, text') ∈ accepted answer sources := by simp [hsplit]
  refine ⟨q, (mem_accepted.mp hq).1, text', (mem_accepted.mp hq).2, hname, ?_,
    h.read_last hopens hp hsplit hname hlast⟩
  intro r hr t htext hsame
  have hmem := mem_accepted.mpr ⟨hr, htext⟩
  have hsorted := h.pairwise_accepted
  rw [hsplit] at hmem hsorted
  rcases List.mem_append.mp hmem with hbefore | hrest
  · exact (List.pairwise_append.mp hsorted).2.2 _ hbefore _ List.mem_cons_self
  · rcases List.mem_cons.mp hrest with heq | hafter
    · cases heq
      simpa using inOrder_total q q
    · exact (hlast (r, t) hafter hsame).elim

/-- A listed source is a stem with one of two extensions, and its Julia file has the stem. -/
theorem Batch.exists_stem (h : d.Batch o directory out answer sources) {p : Bytes}
    (hp : p ∈ sources) : ∃ stem, outputName (base p) = stem ++ utf8 ".jl" ∧
      (p = lead directory ++ stem ++ utf8 ".R" ∨ p = lead directory ++ stem ++ utf8 ".r") := by
  obtain ⟨above, name, source, -, rfl, hsource, -⟩ := h.exists_source hp
  obtain ⟨stem, houtput, hname⟩ := exists_outputName hsource.isSourceName
  rw [hsource.base_eq]
  refine ⟨stem, houtput, hname.imp ?_ ?_⟩ <;> intro heq <;> rw [heq, List.append_assoc]

/-- The two sources with one stem have one Julia file. -/
theorem Batch.outputName_eq (h : d.Batch o directory out answer sources) {front : Bytes}
    (hupper : front ++ utf8 ".R" ∈ sources) (hlower : front ++ utf8 ".r" ∈ sources) :
    outputName (base (front ++ utf8 ".r")) = outputName (base (front ++ utf8 ".R")) := by
  obtain ⟨stem, houtput, hp | hp⟩ := h.exists_stem hupper
  · obtain ⟨stem', houtput', hq | hq⟩ := h.exists_stem hlower
    · exact absurd hq.symm (append_upper_ne_lower _ _)
    · have hfront := (List.append_inj' hp rfl).1
      have hfront' := (List.append_inj' hq rfl).1
      rw [houtput, houtput', List.append_cancel_left (hfront.symm.trans hfront')]
  · exact absurd hp (append_upper_ne_lower _ _)

/-- Another source with the Julia file of a listed one has the other extension. -/
theorem Batch.eq_or_of_outputName (h : d.Batch o directory out answer sources) {p q : Bytes}
    (hp : p ∈ sources) (hq : q ∈ sources) (hname : outputName (base q) = outputName (base p)) :
    q = p ∨ ∃ front, (p = front ++ utf8 ".R" ∧ q = front ++ utf8 ".r") ∨
      (p = front ++ utf8 ".r" ∧ q = front ++ utf8 ".R") := by
  obtain ⟨stem, houtput, hp⟩ := h.exists_stem hp
  obtain ⟨stem', houtput', hq⟩ := h.exists_stem hq
  rw [houtput, houtput'] at hname
  obtain rfl := (List.append_inj' hname rfl).1
  rcases hp with hp | hp <;> rcases hq with hq | hq
  · exact .inl (hq.trans hp.symm)
  · exact .inr ⟨_, .inl ⟨hp, hq⟩⟩
  · exact .inr ⟨_, .inr ⟨hp, hq⟩⟩
  · exact .inl (hq.trans hp.symm)

end Disk

/-- **A Julia file has the text of one source.**  An accepted source has its own text in its
Julia file unless its extension is upper-case and the source of the same stem with the lower-case
extension is accepted too: then that one is written last. -/
theorem batch_keeps_last_of_stem {o : Options} {directory out : Bytes}
    {answer : Bytes → Except TranslateFault Bytes} {sources : List Bytes} {w : World}
    (h : w.disk.Batch o directory out answer sources) (hsome : sources ≠ []) :
    ∃ result w', (World.host.translateAll o directory out).run w = .ok (.ok result, w') ∧
      ∀ p ∈ sources, ∀ text, answer p = .ok text →
        ((∀ front text', p = front ++ utf8 ".R" → front ++ utf8 ".r" ∈ sources →
            answer (front ++ utf8 ".r") ≠ .ok text') →
          w'.disk.read (outputPath out p) = .ok (text ++ utf8 "\n")) ∧
        ∀ front text', p = front ++ utf8 ".R" → front ++ utf8 ".r" ∈ sources →
          answer (front ++ utf8 ".r") = .ok text' →
          outputPath out (front ++ utf8 ".r") = outputPath out p ∧
            w'.disk.read (outputPath out p) = .ok (text' ++ utf8 "\n") := by
  obtain ⟨place, hopens⟩ := Disk.exists_opens h.proper.home h.creatable
  obtain ⟨err, hrun⟩ := translateAll_run h hsome hopens
  refine ⟨_, _, hrun, fun p hp text hanswer => ?_⟩
  obtain ⟨q, hq, text', hanswer', hname, hgreatest, hread⟩ := h.exists_last hopens hp hanswer
  constructor
  · intro hown
    rcases h.eq_or_of_outputName hp hq hname with rfl | ⟨front, ⟨hupper, hlower⟩ | ⟨hlower, hupper⟩⟩
    · rw [hread, Except.ok.inj (hanswer'.symm.trans hanswer)]
    · exact absurd (hlower ▸ hanswer') (hown front text' hupper (hlower ▸ hq))
    · have horder := hgreatest p hp text hanswer rfl
      rw [hlower, hupper, inOrder_lower_upper] at horder
      cases horder
  · rintro front text'' rfl hlower hanswer''
    have hsame := h.outputName_eq hp hlower
    refine ⟨congrArg (fun name => join [out, name]) hsame, ?_⟩
    have horder := hgreatest _ hlower text'' hanswer'' hsame
    rcases h.eq_or_of_outputName hlower hq (hname.trans hsame.symm) with
      rfl | ⟨front', ⟨heq, -⟩ | ⟨heq, rfl⟩⟩
    · rw [hread, Except.ok.inj (hanswer'.symm.trans hanswer'')]
    · exact absurd heq.symm (append_upper_ne_lower _ _)
    · rw [List.append_cancel_right heq, inOrder_lower_upper] at horder
      cases horder

def sharedStem : Disk where
  entries := [([utf8 "d"], .directory), ([utf8 "d", utf8 "a.R"], .file "x <- 1"),
    ([utf8 "d", utf8 "a.r"], .file "y <- 2"), ([utf8 "d", utf8 "b.R"], .file "(")]

def sharedStemAnswer (p : Bytes) : Except TranslateFault Bytes :=
  if p = "d/a.R" then .ok "x = 1"
  else if p = "d/a.r" then .ok "y = 2"
  else .error (.parse ⟨⟨.eof, [], 1, none⟩, .expected "expression" []⟩)

theorem sharedStem_batch :
    sharedStem.Batch {} "d" "out" sharedStemAnswer [utf8 "d/a.R", utf8 "d/a.r", utf8 "d/b.R"] := by
  refine ⟨⟨rfl, by decide, by decide⟩, ?_, ?_, rfl, ?_⟩
  · refine ⟨[(utf8 "a.R", false), (utf8 "a.r", false), (utf8 "b.R", false)], rfl, ?_⟩
    unfold sourcePaths
    rw [List.mergeSort_of_pairwise (by decide)]
    rfl
  · intro p hp source hread
    simp only [List.mem_cons, List.not_mem_nil, or_false] at hp
    rcases hp with rfl | rfl | rfl
    · cases hread.symm.trans (show sharedStem.read "d/a.R" = .ok "x <- 1" from rfl)
      rfl
    · cases hread.symm.trans (show sharedStem.read "d/a.r" = .ok "y <- 2" from rfl)
      rfl
    · cases hread.symm.trans (show sharedStem.read "d/b.R" = .ok "(" from rfl)
      rfl
  · intro p hp text hanswer
    simp only [List.mem_cons, List.not_mem_nil, or_false] at hp
    rcases hp with rfl | rfl | rfl <;> decide

theorem batch_keeps_last_of_stem_shared :
    sharedStem.Batch {} "d" "out" sharedStemAnswer [utf8 "d/a.R", utf8 "d/a.r", utf8 "d/b.R"] ∧
      ∃ result w', (World.host.translateAll {} "d" "out").run { disk := sharedStem } =
          .ok (.ok result, w') ∧
        w'.disk.read "out/a.jl" = .ok "y = 2\n" := by
  obtain ⟨result, w', hrun, hfiles⟩ :=
    batch_keeps_last_of_stem (w := { disk := sharedStem }) sharedStem_batch (by simp)
  refine ⟨sharedStem_batch, result, w', hrun, ?_⟩
  exact ((hfiles "d/a.R" (by simp) "x = 1" rfl).2 "d/a" "y = 2" rfl (by decide) rfl).2

/-- Of the two sources of one stem, the first one loses its Julia file. -/
theorem julia_file_is_overwritten :
    sharedStem.read "d/a.R" = .ok "x <- 1" ∧ translate {} "x <- 1" = .ok (.ok "x = 1") ∧
      ∃ faults w', (World.host.translateAll {} "d" "out").run { disk := sharedStem } =
          .ok (.ok ([utf8 "out/a.jl", utf8 "out/a.jl"], faults), w') ∧
        w'.disk.read (outputPath "out" "d/a.R") = .ok "y = 2\n" := by
  obtain ⟨err, hrun⟩ := translateAll_run (w := { disk := sharedStem }) sharedStem_batch (by simp)
    ⟨rfl, rfl, rfl, rfl⟩
  exact ⟨rfl, rfl, _, _, hrun, rfl⟩

/-! ## Without the refused sources -/

namespace Disk

def places (d : Disk) (paths : List Bytes) : List Location :=
  paths.filterMap fun p => (d.locate p).toOption

def remove (d : Disk) (paths : List Bytes) : Disk :=
  d.without (d.places paths)

variable {d : Disk} {o : Options} {directory out : Bytes}
  {answer : Bytes → Except TranslateFault Bytes} {sources : List Bytes}

theorem mem_places {paths : List Bytes} {place : Location} :
    place ∈ d.places paths ↔ ∃ p ∈ paths, d.locate p = .ok place := by
  unfold places
  rw [List.mem_filterMap]
  refine exists_congr fun p => and_congr_right fun _ => ?_
  cases d.locate p <;> simp [Except.toOption]

theorem mem_refused_paths {p : Bytes} :
    p ∈ (refused answer sources).map Prod.fst ↔ p ∈ sources ∧ (answer p).isOk = false := by
  rw [List.mem_map]
  constructor
  · rintro ⟨⟨q, f⟩, hmem, rfl⟩
    obtain ⟨hq, hanswer⟩ := mem_refused.mp hmem
    exact ⟨hq, by rw [hanswer]; rfl⟩
  · rintro ⟨hp, hanswer⟩
    cases h : answer p with
    | ok text => rw [h] at hanswer; cases hanswer
    | error f => exact ⟨(p, f), mem_refused.mpr ⟨hp, h⟩, rfl⟩

def refusedPlaces (d : Disk) (answer : Bytes → Except TranslateFault Bytes)
    (sources : List Bytes) : List Location :=
  d.places ((refused answer sources).map Prod.fst)

theorem mem_refusedPlaces {place : Location} :
    place ∈ d.refusedPlaces answer sources ↔
      ∃ p ∈ sources, (answer p).isOk = false ∧ d.locate p = .ok place := by
  unfold refusedPlaces
  simp only [mem_places, mem_refused_paths, and_assoc]

theorem Batch.areFiles (h : d.Batch o directory out answer sources) :
    d.AreFiles (d.refusedPlaces answer sources) := by
  intro place hplace
  obtain ⟨p, hp, -, hlocated⟩ := mem_refusedPlaces.mp hplace
  obtain ⟨above, name, source, -, -, hsource, -⟩ := h.exists_source hp
  cases hlocated.symm.trans hsource.located
  exact ⟨source, hsource.entry⟩

/-- An entry that is listed goes away with its path. -/
theorem Batch.mem_refusedPlaces_iff {place : Location} {name : Bytes} {e : Entry}
    (h : d.Batch o directory out answer (sourcePaths directory (d.children place)))
    (hplace : d.locate directory = .ok place) (hdir : d.entry? place = some .directory)
    (hmem : (place ++ [name], e) ∈ d.entries) (hfile : e ≠ .directory)
    (hsource : isSourceName name = true) :
    place ++ [name] ∈ d.refusedPlaces answer (sourcePaths directory (d.children place)) ↔
      (answer (join [directory, name])).isOk = false := by
  have hname : IsFileName name := h.proper.named _ hmem name (by simp)
  rw [mem_refusedPlaces]
  constructor
  · rintro ⟨p, hp, hanswer, hlocated⟩
    obtain ⟨name', source, hlead, hother⟩ := h.proper.listed hplace hdir hp
    have heq := Except.ok.inj (hlocated.symm.trans hother.located)
    have hnames : name = name' := by simpa using heq
    rw [join_name (locate_ok.mp hplace).1 hname, hnames, ← hlead]
    exact hanswer
  · intro hanswer
    exact ⟨_, mem_sourcePaths.mpr ⟨name, e, hmem, hfile, hsource, rfl⟩, hanswer,
      locate_join h.proper.home hplace hdir hname⟩

/-- Without the refused sources, the batch is that of the accepted ones. -/
theorem Batch.without (h : d.Batch o directory out answer sources) :
    (d.without (d.refusedPlaces answer sources)).Batch o directory out answer
      (sources.filter fun p => (answer p).isOk) := by
  have hfiles := h.areFiles
  have hmade : d.makeDirectories out = (.ok (), (d.makeDirectories out).2) := by
    rw [← h.creatable]
  have hmade' := hfiles.makeDirectories_without hmade
  refine ⟨h.proper.without _, ?_, fun p hp source hread => ?_, ?_, fun p hp text hanswer => ?_⟩
  · obtain ⟨place, hplace, hdir, rfl⟩ := h.exists_place
    have hextends := hfiles.extends_without
    refine ⟨_, list_ok.mpr ⟨place, hextends.locate hplace, hextends.directory place hdir, rfl⟩, ?_⟩
    exact (sourcePaths_without fun name e hmem hfile hsource =>
      h.mem_refusedPlaces_iff hplace hdir hmem hfile hsource).symm
  · exact h.answered p (List.mem_filter.mp hp).1 source (hfiles.keeps_without.read hread)
  · rw [hmade']
  · rw [hmade']
    intro hdir
    have hkeeps := (hfiles.keeps (makeDirectories_keeps hmade)).keeps_without
    exact h.writable p (List.mem_filter.mp hp).1 text hanswer
      (hkeeps.extends.directory_status hdir)

/-- The refused sources stand where they stood after a batch. -/
theorem Batch.refusedPlaces_delivered (h : d.Batch o directory out answer sources) {made : Disk}
    {place : Location} (hopens : d.Opens out made place) :
    (d.delivered made place (juliaFiles answer sources)).refusedPlaces answer sources =
      d.refusedPlaces answer sources := by
  unfold refusedPlaces places
  refine List.filterMap_congr fun p hp => ?_
  obtain ⟨above, name, source, -, -, hsource, -⟩ := h.exists_source (mem_refused_paths.mp hp).1
  rw [hsource.located, ((h.ready hopens).hasSource_delivered hsource).located]

/-- Another directory loses nothing. -/
theorem Batch.not_mem_refusedPlaces (h : d.Batch o directory out answer sources)
    {place : Location} (hother : d.locate directory ≠ .ok place) (name : Bytes) :
    place ++ [name] ∉ d.refusedPlaces answer sources := by
  intro hmem
  obtain ⟨p, hp, -, hlocated⟩ := mem_refusedPlaces.mp hmem
  obtain ⟨above, name', source, habove, -, hsource, -⟩ := h.exists_source hp
  have heq := Except.ok.inj (hlocated.symm.trans hsource.located)
  rw [(List.append_inj' heq rfl).1] at hother
  exact hother habove

theorem Batch.areFiles_delivered (h : d.Batch o directory out answer sources) {made : Disk}
    {place : Location} (hopens : d.Opens out made place) :
    (d.delivered made place (juliaFiles answer sources)).AreFiles
      (d.refusedPlaces answer sources) := by
  intro q hq
  obtain ⟨p, hp, -, hlocated⟩ := mem_refusedPlaces.mp hq
  obtain ⟨above, name, source, -, -, hsource, -⟩ := h.exists_source hp
  cases hlocated.symm.trans hsource.located
  exact ⟨source, ((h.ready hopens).hasSource_delivered hsource).entry⟩

/-- Taking the refused sources away before a batch or after it makes no difference. -/
theorem Batch.delivered_without (h : d.Batch o directory out answer sources) {made : Disk}
    {place : Location} :
    (d.delivered made place (juliaFiles answer sources)).without
        (d.refusedPlaces answer sources) =
      (d.without (d.refusedPlaces answer sources)).delivered
        (made.without (d.refusedPlaces answer sources)) place (juliaFiles answer sources) := by
  unfold delivered
  split
  · rfl
  · refine filled_without fun item hitem hgone => ?_
    obtain ⟨a, ha, rfl⟩ := List.mem_map.mp hitem
    obtain ⟨above, name, source, -, -, hother, -⟩ := h.exists_source (mem_accepted.mp ha).1
    obtain ⟨p, hp, -, hlocated⟩ := mem_refusedPlaces.mp hgone
    obtain ⟨above', name', source', -, -, hsource, -⟩ := h.exists_source hp
    have heq := Except.ok.inj (hsource.located.symm.trans hlocated)
    rw [hother.base_eq] at heq
    exact hsource.ne_output hother.isSourceName place heq

end Disk

/-- **Refused sources are isolated.**  A batch gives the paths of the Julia files of the accepted
sources and one fault for every refused source, both in the order of the paths, and leaves the
sources as they are.  Taking the refused sources away beforehand changes neither the written paths
nor anything else on the disk; in particular an output directory other than that of the sources
has the same entries. -/
theorem refused_sources_isolated {o : Options} {directory out : Bytes}
    {answer : Bytes → Except TranslateFault Bytes} {sources : List Bytes} {w : World}
    (h : w.disk.Batch o directory out answer sources) (hsome : sources ≠ []) :
    (sources.Pairwise fun p q => inOrder p q = true) ∧
      ∃ w', (World.host.translateAll o directory out).run w =
          .ok (.ok ((accepted answer sources).map fun a => outputPath out a.1,
            (refused answer sources).map fun r => .translate r.1 r.2), w') ∧
        (∀ p ∈ sources, w'.disk.read p = w.disk.read p) ∧
        (accepted answer sources ≠ [] →
          ∃ v, (World.host.translateAll o directory out).run
              { w with disk := w.disk.remove ((refused answer sources).map Prod.fst) } =
              .ok (.ok ((accepted answer sources).map fun a => outputPath out a.1, []), v) ∧
            v.disk = w'.disk.remove ((refused answer sources).map Prod.fst) ∧
            ∀ place, w'.disk.locate out = .ok place → w.disk.locate directory ≠ .ok place →
              ∀ name, v.disk.entry? (place ++ [name]) = w'.disk.entry? (place ++ [name])) := by
  obtain ⟨place, hopens⟩ := Disk.exists_opens h.proper.home h.creatable
  obtain ⟨err, hrun⟩ := translateAll_run h hsome hopens
  have hready := h.ready hopens
  refine ⟨h.pairwise, _, hrun, fun p hp => ?_, fun haccepted => ?_⟩
  · obtain ⟨above, name, source, -, -, hsource, -⟩ := h.exists_source hp
    rw [hsource.read]
    exact (hready.hasSource_delivered hsource).read
  · have hkept : (sources.filter fun p => (answer p).isOk) ≠ [] := by
      intro hnil
      rw [← accepted_filter, hnil] at haccepted
      exact haccepted rfl
    obtain ⟨err', hrun'⟩ := translateAll_run
      (w := { w with disk := w.disk.without (w.disk.refusedPlaces answer sources) })
      h.without hkept (hopens.without h.areFiles)
    unfold Disk.juliaFiles at hrun'
    rw [accepted_filter, refused_filter] at hrun'
    refine ⟨_, hrun', ?_, fun place' _ hother name => ?_⟩
    · unfold Disk.remove
      rw [← Disk.refusedPlaces, h.refusedPlaces_delivered hopens]
      exact h.delivered_without.symm
    · have hentry := (h.areFiles_delivered hopens).entry?_without (place' ++ [name])
      rw [if_neg (h.not_mem_refusedPlaces hother name), h.delivered_without] at hentry
      exact hentry

theorem refused_sources_isolated_shared :
    sharedStem.Batch {} "d" "out" sharedStemAnswer [utf8 "d/a.R", utf8 "d/a.r", utf8 "d/b.R"] ∧
      ∃ w', (World.host.translateAll {} "d" "out").run { disk := sharedStem } =
          .ok (.ok ([utf8 "out/a.jl", utf8 "out/a.jl"],
            [.translate "d/b.R" (.parse ⟨⟨.eof, [], 1, none⟩, .expected "expression" []⟩)]), w') ∧
        w'.disk.read "d/b.R" = .ok "(" ∧
        ∃ v, (World.host.translateAll {} "d" "out").run
            { disk := sharedStem.remove [utf8 "d/b.R"] } =
            .ok (.ok ([utf8 "out/a.jl", utf8 "out/a.jl"], []), v) ∧
          v.disk = w'.disk.remove [utf8 "d/b.R"] := by
  obtain ⟨-, w', hrun, hsources, hremoved⟩ :=
    refused_sources_isolated (w := { disk := sharedStem }) sharedStem_batch (by simp)
  obtain ⟨v, hrun', hdisk, -⟩ := hremoved (by decide)
  exact ⟨sharedStem_batch, w', hrun, hsources "d/b.R" (by simp), v, hrun', hdisk⟩

end RToJulia
