import RToJulia.Proofs.Files.Places

/-! # Writing the Julia files of sources

A source that stands on a disk is read, and its answer decides: a refused source
leaves the disk as it is, an accepted one puts its file into the output directory.
Sources and their Julia files never share a place, so the answers are those of the
first disk throughout, and of the files with one name the last one stays.
-/

namespace RToJulia

open Text RToJulia.Path

/-! ## Answers -/

def accepted (answer : Bytes → Except TranslateFault Bytes) (paths : List Bytes) :
    List (Bytes × Bytes) :=
  paths.filterMap fun p =>
    match answer p with
    | .ok text => some (p, text)
    | .error _ => none

def refused (answer : Bytes → Except TranslateFault Bytes) (paths : List Bytes) :
    List (Bytes × TranslateFault) :=
  paths.filterMap fun p =>
    match answer p with
    | .ok _ => none
    | .error f => some (p, f)

section Answers

variable {answer : Bytes → Except TranslateFault Bytes} {p : Bytes} {paths : List Bytes}

theorem accepted_cons_ok {text : Bytes} (h : answer p = .ok text) :
    accepted answer (p :: paths) = (p, text) :: accepted answer paths := by
  simp [accepted, h]

theorem accepted_cons_error {f : TranslateFault} (h : answer p = .error f) :
    accepted answer (p :: paths) = accepted answer paths := by
  simp [accepted, h]

theorem refused_cons_ok {text : Bytes} (h : answer p = .ok text) :
    refused answer (p :: paths) = refused answer paths := by
  simp [refused, h]

theorem refused_cons_error {f : TranslateFault} (h : answer p = .error f) :
    refused answer (p :: paths) = (p, f) :: refused answer paths := by
  simp [refused, h]

theorem mem_accepted {text : Bytes} :
    (p, text) ∈ accepted answer paths ↔ p ∈ paths ∧ answer p = .ok text := by
  induction paths with
  | nil => simp [accepted]
  | cons q paths ih =>
      cases h : answer q with
      | ok text' =>
          rw [accepted_cons_ok h, List.mem_cons, List.mem_cons, ih]
          grind
      | error f =>
          rw [accepted_cons_error h, List.mem_cons, ih]
          grind

theorem mem_refused {f : TranslateFault} :
    (p, f) ∈ refused answer paths ↔ p ∈ paths ∧ answer p = .error f := by
  induction paths with
  | nil => simp [refused]
  | cons q paths ih =>
      cases h : answer q with
      | ok text =>
          rw [refused_cons_ok h, List.mem_cons, ih]
          grind
      | error f' =>
          rw [refused_cons_error h, List.mem_cons, List.mem_cons, ih]
          grind

theorem accepted_paths (answer : Bytes → Except TranslateFault Bytes) (paths : List Bytes) :
    (accepted answer paths).map Prod.fst = paths.filter fun p => (answer p).isOk := by
  induction paths with
  | nil => rfl
  | cons p paths ih =>
      cases h : answer p with
      | ok text =>
          rw [List.filter_cons_of_pos (by rw [h]; rfl), accepted_cons_ok h, List.map_cons, ih]
      | error f =>
          rw [List.filter_cons_of_neg (by rw [h]; exact Bool.false_ne_true),
            accepted_cons_error h, ih]

theorem accepted_filter (answer : Bytes → Except TranslateFault Bytes) (paths : List Bytes) :
    accepted answer (paths.filter fun p => (answer p).isOk) = accepted answer paths := by
  induction paths with
  | nil => rfl
  | cons p paths ih =>
      cases h : answer p with
      | ok text =>
          rw [List.filter_cons_of_pos (by rw [h]; rfl), accepted_cons_ok h, accepted_cons_ok h, ih]
      | error f =>
          rw [List.filter_cons_of_neg (by rw [h]; exact Bool.false_ne_true),
            accepted_cons_error h, ih]

theorem refused_filter (answer : Bytes → Except TranslateFault Bytes) (paths : List Bytes) :
    refused answer (paths.filter fun p => (answer p).isOk) = [] := by
  induction paths with
  | nil => rfl
  | cons p paths ih =>
      cases h : answer p with
      | ok text => rw [List.filter_cons_of_pos (by rw [h]; rfl), refused_cons_ok h, ih]
      | error f => rw [List.filter_cons_of_neg (by rw [h]; exact Bool.false_ne_true), ih]

end Answers

/-! ## Files in a directory -/

namespace Disk

variable {d d' : Disk} {place : Location} {items : List (Bytes × Bytes)}

/-- A disk with files at names below a place, written one after the other. -/
def filled (d : Disk) (place : Location) (items : List (Bytes × Bytes)) : Disk :=
  items.foldl (fun d item => d.set (place ++ [item.1]) (.file item.2)) d

theorem filled_cons (d : Disk) (place : Location) (item : Bytes × Bytes)
    (items : List (Bytes × Bytes)) :
    d.filled place (item :: items) =
      (d.set (place ++ [item.1]) (.file item.2)).filled place items :=
  rfl

/-- A place that no file is written to. -/
theorem entry?_filled_of_ne {q : Location} (h : ∀ item ∈ items, q ≠ place ++ [item.1]) :
    entry? (d.filled place items) q = d.entry? q := by
  induction items generalizing d with
  | nil => rfl
  | cons item items ih =>
      rw [filled_cons, ih fun x hx => h x (List.mem_cons_of_mem _ hx), entry?_set (by simp),
        if_neg (h item List.mem_cons_self)]

/-- Of the files with one name, the last one stays. -/
theorem entry?_filled_last {before after : List (Bytes × Bytes)} {item : Bytes × Bytes}
    (h : ∀ later ∈ after, later.1 ≠ item.1) :
    entry? (d.filled place (before ++ item :: after)) (place ++ [item.1]) =
      some (.file item.2) := by
  have hsplit : d.filled place (before ++ item :: after) =
      ((d.filled place before).set (place ++ [item.1]) (.file item.2)).filled place after := by
    unfold filled
    rw [List.foldl_append, List.foldl_cons]
  rw [hsplit, entry?_filled_of_ne, entry?_set (by simp), if_pos rfl]
  intro later hlater heq
  exact h later hlater (List.cons.inj (List.append_cancel_left heq)).1.symm

theorem filled_current (d : Disk) (place : Location) (items : List (Bytes × Bytes)) :
    (d.filled place items).current = d.current := by
  induction items generalizing d with
  | nil => rfl
  | cons item items ih => exact ih _

theorem filled_home (d : Disk) (place : Location) (items : List (Bytes × Bytes)) :
    (d.filled place items).home = d.home := by
  induction items generalizing d with
  | nil => rfl
  | cons item items ih => exact ih _

/-- Files written where no directory stands leave the directories. -/
theorem extends_filled
    (h : ∀ item ∈ items, d.entry? (place ++ [item.1]) ≠ some .directory) :
    Extends d (d.filled place items) := by
  refine ⟨filled_current d place items, filled_home d place items, fun q hdir => ?_⟩
  rw [entry?_filled_of_ne, hdir]
  intro item hitem heq
  exact h item hitem (heq ▸ hdir)

theorem filled_without {gone : List Location} (h : ∀ item ∈ items, place ++ [item.1] ∉ gone) :
    (d.filled place items).without gone = (d.without gone).filled place items := by
  induction items generalizing d with
  | nil => rfl
  | cons item items ih =>
      rw [filled_cons, filled_cons, ih fun x hx => h x (List.mem_cons_of_mem _ hx),
        set_without (h item List.mem_cons_self)]

/-! ## Sources and the directory for their files -/

structure HasSource (d : Disk) (p : Bytes) (above : Location) (name source : Bytes) : Prop where
  isFileName : IsFileName name
  isSourceName : isSourceName name = true
  base_eq : base p = name
  located : d.locate p = .ok (above ++ [name])
  entry : d.entry? (above ++ [name]) = some (.file source)

theorem HasSource.read {p source name : Bytes} {above : Location}
    (h : d.HasSource p above name source) : d.read p = .ok source :=
  read_ok.mpr (status_ok.mpr ⟨_, h.located, h.entry⟩)

theorem HasSource.outputPath_eq {p source name : Bytes} {above : Location}
    (h : d.HasSource p above name source) (out : Bytes) :
    outputPath out p = join [out, outputName name] := by
  unfold outputPath outputName
  rw [h.base_eq]

/-- A source has another place than every Julia file. -/
theorem HasSource.ne_output {p source name : Bytes} {above : Location}
    (h : d.HasSource p above name source) {other : Bytes}
    (hother : RToJulia.isSourceName other = true) (q : Location) :
    above ++ [name] ≠ q ++ [outputName other] := by
  intro heq
  have hname := (List.append_inj' heq rfl).2
  have hsource := h.isSourceName
  rw [(List.cons.inj hname).1, isSourceName_outputName hother] at hsource
  cases hsource

theorem HasSource.extends {p source name : Bytes} {above : Location}
    (h : d.HasSource p above name source) (hextends : Extends d d')
    (hentry : d'.entry? (above ++ [name]) = d.entry? (above ++ [name])) :
    d'.HasSource p above name source :=
  ⟨h.isFileName, h.isSourceName, h.base_eq, hextends.locate h.located, hentry.trans h.entry⟩

/-- A directory for files can be made, at a place where it then stands. -/
structure Opens (d : Disk) (out : Bytes) (made : Disk) (place : Location) : Prop where
  home : d.home = []
  makes : d.makeDirectories out = (.ok (), made)
  located : made.locate out = .ok place
  directory : made.entry? place = some .directory

theorem exists_opens (hhome : d.home = []) {out : Bytes} (h : (d.makeDirectories out).1 = .ok ()) :
    ∃ place, d.Opens out (d.makeDirectories out).2 place := by
  have hmade : d.makeDirectories out = (.ok (), (d.makeDirectories out).2) := by rw [← h]
  obtain ⟨place, hplace, hdir⟩ := status_ok.mp (makeDirectories_status hmade)
  exact ⟨place, hhome, hmade, hplace, hdir⟩

variable {out : Bytes} {made : Disk}

theorem Opens.locate_join (h : d.Opens out made place) {name : Bytes} (hname : IsFileName name) :
    made.locate (join [out, name]) = .ok (place ++ [name]) := by
  have hhome := (makeDirectories_keeps h.makes).home.trans h.home
  exact Disk.locate_join hhome h.located h.directory hname

/-- The directory stays where it is when files are written. -/
theorem Opens.extends (h : d.Opens out made place) (hextends : Extends made d') :
    d'.Opens out d' place := by
  have hhome := (makeDirectories_keeps h.makes).home.trans h.home
  refine ⟨hextends.home.trans hhome, ?_, hextends.locate h.located,
    hextends.directory place h.directory⟩
  exact makeDirectories_of_status
    (hextends.directory_status (makeDirectories_status h.makes))

theorem Opens.without (h : d.Opens out made place) {gone : List Location}
    (hfiles : d.AreFiles gone) : (d.without gone).Opens out (made.without gone) place := by
  have hextends := (hfiles.keeps (makeDirectories_keeps h.makes)).extends_without
  exact ⟨h.home, hfiles.makeDirectories_without h.makes, hextends.locate h.located,
    hextends.directory place h.directory⟩

/-! ## One source after the other -/

def juliaFiles (answer : Bytes → Except TranslateFault Bytes) (paths : List Bytes) :
    List (Bytes × Bytes) :=
  (accepted answer paths).map fun a => (outputName (base a.1), a.2 ++ utf8 "\n")

theorem juliaFiles_cons_ok {answer : Bytes → Except TranslateFault Bytes} {p text : Bytes}
    (h : answer p = .ok text) (paths : List Bytes) :
    juliaFiles answer (p :: paths) =
      (outputName (base p), text ++ utf8 "\n") :: juliaFiles answer paths := by
  unfold juliaFiles
  rw [accepted_cons_ok h]
  rfl

theorem juliaFiles_cons_error {answer : Bytes → Except TranslateFault Bytes} {p : Bytes}
    {f : TranslateFault} (h : answer p = .error f) (paths : List Bytes) :
    juliaFiles answer (p :: paths) = juliaFiles answer paths := by
  unfold juliaFiles
  rw [accepted_cons_error h]

/-- A disk on which the sources at paths stand with their answers, and on which the Julia files of
the accepted ones can be written. -/
structure Ready (d : Disk) (o : Options) (out : Bytes) (made : Disk) (place : Location)
    (answer : Bytes → Except TranslateFault Bytes) (paths : List Bytes) : Prop
    extends d.Opens out made place where
  source : ∀ p ∈ paths, ∃ above name source,
    d.HasSource p above name source ∧ translate o source = .ok (answer p)
  free : ∀ item ∈ juliaFiles answer paths, made.entry? (place ++ [item.1]) ≠ some .directory

variable {o : Options} {answer : Bytes → Except TranslateFault Bytes} {paths : List Bytes}

/-- Sources keep standing when Julia files are written. -/
theorem Ready.hasSource_filled (h : d.Ready o out made place answer paths)
    {p source name : Bytes} {above : Location} (hsource : d.HasSource p above name source)
    (hitems : ∀ item ∈ items, item ∈ juliaFiles answer paths) :
    (made.filled place items).HasSource p above name source := by
  have hkeeps := makeDirectories_keeps h.makes
  have hmade : made.HasSource p above name source :=
    hsource.extends hkeeps.extends ((hkeeps.entry _ _ hsource.entry).trans hsource.entry.symm)
  have hextends := extends_filled fun item hitem => h.free item (hitems item hitem)
  refine hmade.extends hextends (entry?_filled_of_ne fun item hitem => ?_)
  obtain ⟨a, ha, rfl⟩ := List.mem_map.mp (hitems item hitem)
  obtain ⟨above', name', source', hother, -⟩ := h.source a.1 (mem_accepted.mp ha).1
  rw [hother.base_eq]
  exact hsource.ne_output hother.isSourceName place

theorem Ready.tail {p : Bytes} (h : d.Ready o out made place answer (p :: paths)) :
    d.Ready o out made place answer paths := by
  refine ⟨h.toOpens, fun q hq => h.source q (List.mem_cons_of_mem _ hq), fun item hitem => ?_⟩
  refine h.free item ?_
  cases hanswer : answer p with
  | ok text =>
      rw [juliaFiles_cons_ok hanswer]
      exact List.mem_cons_of_mem _ hitem
  | error f =>
      rw [juliaFiles_cons_error hanswer]
      exact hitem

/-- One Julia file can be written, and the disk is ready for the next ones. -/
theorem Ready.deliver {p text : Bytes} (h : d.Ready o out made place answer (p :: paths))
    (hanswer : answer p = .ok text) :
    ∃ d', made.write (outputPath out p) (text ++ utf8 "\n") = .ok d' ∧
      d' = made.filled place [(outputName (base p), text ++ utf8 "\n")] ∧
      d'.Ready o out d' place answer paths := by
  have hfirst : ∀ item ∈ [(outputName (base p), text ++ utf8 "\n")],
      item ∈ juliaFiles answer (p :: paths) := by
    rw [juliaFiles_cons_ok hanswer]
    simp
  have hextends := extends_filled fun item hitem => h.free item (hfirst item hitem)
  obtain ⟨above, name, source, hsource, -⟩ := h.source p List.mem_cons_self
  refine ⟨_, ?_, rfl, h.toOpens.extends hextends, fun q hq => ?_, fun item hitem => ?_⟩
  · have hlocated := h.locate_join (isFileName_outputName hsource.isFileName hsource.isSourceName)
    rw [← hsource.outputPath_eq, ← hsource.base_eq] at hlocated
    exact write_eq hlocated (h.free _ (hfirst _ List.mem_cons_self)) _
  · obtain ⟨above', name', source', hother, htranslate⟩ :=
      h.source q (List.mem_cons_of_mem _ hq)
    exact ⟨above', name', source', h.hasSource_filled hother hfirst, htranslate⟩
  · change entry? (made.set _ _) _ ≠ _
    rw [entry?_set (by simp)]
    split
    · simp
    · exact h.tail.free item hitem

/-- The disk once Julia files are written; without one the directory for them is not made. -/
def delivered (d made : Disk) (place : Location) (items : List (Bytes × Bytes)) : Disk :=
  if items = [] then d else made.filled place items

theorem delivered_self (d : Disk) (place : Location) (items : List (Bytes × Bytes)) :
    d.delivered d place items = d.filled place items := by
  cases items <;> rfl

/-- Sources keep standing in a whole batch. -/
theorem Ready.hasSource_delivered (h : d.Ready o out made place answer paths)
    {p source name : Bytes} {above : Location} (hsource : d.HasSource p above name source) :
    (d.delivered made place (juliaFiles answer paths)).HasSource p above name source := by
  unfold delivered
  split
  · exact hsource
  · exact h.hasSource_filled hsource fun _ hitem => hitem

end Disk

/-! ## Runs on a world -/

theorem run_bind_ok {α β : Type} {x : Run α} {f : α → Run β} {a : α} {w w' : World}
    (h : x.run w = .ok (a, w')) : (x >>= f).run w = (f a).run w' := by
  rw [StateT.run_bind, h]
  rfl

theorem read_run {path source : Bytes} {w : World} (h : w.disk.read path = .ok source) :
    (World.host.read path).run w = .ok (.ok source, w) := by
  rw [← h]
  rfl

theorem makeDirectories_run {out : Bytes} {w : World} {made : Disk}
    (h : w.disk.makeDirectories out = (.ok (), made)) :
    (World.host.makeDirectories out).run w = .ok (.ok (), { w with disk := made }) := by
  have hrun : (World.host.makeDirectories out).run w =
      .ok ((w.disk.makeDirectories out).1, { w with disk := (w.disk.makeDirectories out).2 }) := rfl
  rw [hrun, h]

theorem write_run {path content : Bytes} {w : World} {d : Disk}
    (h : w.disk.write path content = .ok d) :
    (World.host.write path content).run w = .ok (.ok (), { w with disk := d }) := by
  simp only [World.host, World.onDisk]
  change Except.ok _ = _
  simp [h]

theorem translateText_run (o : Options) {source : Bytes} {answer : Except TranslateFault Bytes}
    (h : translate o source = .ok answer) (w : World) :
    (World.host.translateText o source).run w =
      .ok (answer, { w with err := w.err ++ warnings source }) := by
  unfold Host.translateText
  rw [h]
  by_cases hwarn : warnings source = [] <;> simp [hwarn] <;> rfl

theorem translateFile_refused {o : Options} {path source : Bytes} {f : TranslateFault}
    {w : World} (out : Bytes) (hread : w.disk.read path = .ok source)
    (h : translate o source = .ok (.error f)) :
    (World.host.translateFile o path out).run w =
      .ok (.error (.translate path f), { w with err := w.err ++ warnings source }) := by
  unfold Host.translateFile
  rw [run_bind_ok (read_run hread), run_bind_ok (translateText_run o h w)]
  rfl

theorem translateFile_written {o : Options} {path out source text : Bytes} {w : World}
    {made d : Disk} (hread : w.disk.read path = .ok source)
    (h : translate o source = .ok (.ok text))
    (hmade : w.disk.makeDirectories out = (.ok (), made))
    (hwrite : made.write (outputPath out path) (text ++ utf8 "\n") = .ok d) :
    (World.host.translateFile o path out).run w =
      .ok (.ok (outputPath out path), { w with disk := d, err := w.err ++ warnings source }) := by
  have hmake := makeDirectories_run (w := { w with err := w.err ++ warnings source }) hmade
  have hput := write_run (w := { w with disk := made, err := w.err ++ warnings source }) hwrite
  unfold Host.translateFile
  rw [run_bind_ok (read_run hread), run_bind_ok (translateText_run o h w)]
  exact (run_bind_ok hmake).trans ((run_bind_ok hput).trans rfl)

/-- The Julia files of all accepted sources are written, in order, and every refused source is
reported. -/
theorem translateEach_run {o : Options} {out : Bytes} {made : Disk} {place : Location}
    {answer : Bytes → Except TranslateFault Bytes} {paths : List Bytes} {w : World}
    (h : w.disk.Ready o out made place answer paths) :
    ∃ err, (World.host.translateEach o out paths).run w =
      .ok (((accepted answer paths).map fun a => outputPath out a.1,
        (refused answer paths).map fun r => .translate r.1 r.2),
        { w with disk := w.disk.delivered made place (Disk.juliaFiles answer paths), err }) := by
  induction paths generalizing w made with
  | nil => exact ⟨w.err, rfl⟩
  | cons p paths ih =>
      obtain ⟨above, name, source, hsource, htranslate⟩ := h.source p List.mem_cons_self
      cases hanswer : answer p with
      | error f =>
          rw [hanswer] at htranslate
          have hfirst := translateFile_refused out hsource.read htranslate
          obtain ⟨err, hrest⟩ := ih (w := { w with err := w.err ++ warnings source }) h.tail
          refine ⟨err, ?_⟩
          rw [Host.translateEach, run_bind_ok hfirst, run_bind_ok hrest, refused_cons_error hanswer,
            accepted_cons_error hanswer, Disk.juliaFiles_cons_error hanswer]
          rfl
      | ok text =>
          rw [hanswer] at htranslate
          obtain ⟨d, hwrite, hd, hready⟩ := h.deliver hanswer
          have hfirst := translateFile_written hsource.read htranslate h.makes hwrite
          obtain ⟨err, hrest⟩ :=
            ih (w := { w with disk := d, err := w.err ++ warnings source }) hready
          refine ⟨err, ?_⟩
          rw [Host.translateEach, run_bind_ok hfirst, run_bind_ok hrest, refused_cons_ok hanswer,
            accepted_cons_ok hanswer, Disk.juliaFiles_cons_ok hanswer, Disk.delivered_self, hd]
          rfl

end RToJulia
