import RToJulia.Proofs.Files.Paths

/-! # Places on a disk

Following a path depends on the directories of a disk alone, and carrying out `.`
and `..` beforehand leads to the same place.  Making directories keeps all that
stands on a disk, and taking files away changes nothing about it.
-/

namespace RToJulia

open Text RToJulia.Path

namespace Disk

/-! ## Entries -/

theorem lookup_cons (found q : Location) (e : Entry) (entries : List (Location × Entry)) :
    ((found, e) :: entries).lookup q = if q = found then some e else entries.lookup q := by
  rw [List.lookup_cons]
  by_cases h : q = found
  · simp [h]
  · rw [beq_eq_false_iff_ne.mpr h, if_neg h]

theorem lookup_setEntry (place q : Location) (e : Entry) (entries : List (Location × Entry)) :
    (setEntry place e entries).lookup q = if q = place then some e else entries.lookup q := by
  induction entries with
  | nil => exact lookup_cons place q e []
  | cons x entries ih =>
      obtain ⟨found, e'⟩ := x
      by_cases hx : found = place
      · by_cases h : q = place <;> simp [setEntry, lookup_cons, hx, h]
      · simp only [setEntry, hx, if_false, lookup_cons, ih]
        by_cases h : q = found <;> simp [h, hx]

theorem entry?_set {place : Location} (hne : place ≠ []) (d : Disk) (e : Entry) (q : Location) :
    entry? (d.set place e) q = if q = place then some e else d.entry? q := by
  unfold entry? set
  by_cases hq : q = []
  · simp [hq, Ne.symm hne]
  · simp [hq, lookup_setEntry]

/-! ## Following components -/

def into (place : Location) (c : Bytes) : Location :=
  if c = utf8 "." then place else if c = utf8 ".." then place.dropLast else place ++ [c]

theorem into_name {name : Bytes} (hhere : name ≠ utf8 ".") (habove : name ≠ utf8 "..")
    (place : Location) : into place name = place ++ [name] := by
  simp [into, hhere, habove]

theorem follow_cons_ok {d : Disk} {place q : Location} {c : Bytes} {rest : List Bytes} :
    d.follow place (c :: rest) = .ok q ↔
      d.entry? place = some .directory ∧ d.follow (into place c) rest = .ok q := by
  rw [follow]
  cases d.entry? place with
  | none => simp
  | some e =>
      cases e with
      | file content => simp
      | directory =>
          unfold into
          by_cases hhere : c = utf8 "."
          · simp [hhere]
          · rw [if_neg hhere, if_neg hhere]
            by_cases habove : c = utf8 ".." <;> simp [habove]

theorem follow_append_ok {d : Disk} {place q : Location} {xs ys : List Bytes} :
    d.follow place (xs ++ ys) = .ok q ↔
      ∃ r, d.follow place xs = .ok r ∧ d.follow r ys = .ok q := by
  induction xs generalizing place with
  | nil => simp [follow]
  | cons x xs ih =>
      rw [List.cons_append, follow_cons_ok, ih]
      constructor
      · rintro ⟨hdir, r, hfirst, hrest⟩
        exact ⟨r, follow_cons_ok.mpr ⟨hdir, hfirst⟩, hrest⟩
      · rintro ⟨r, hfirst, hrest⟩
        have hcons := follow_cons_ok.mp hfirst
        exact ⟨hcons.1, r, hcons.2, hrest⟩

theorem follow_concat_ok {d : Disk} {place q : Location} {cs : List Bytes} {c : Bytes} :
    d.follow place (cs ++ [c]) = .ok q ↔
      ∃ r, d.follow place cs = .ok r ∧ d.entry? r = some .directory ∧ q = into r c := by
  rw [follow_append_ok]
  refine exists_congr fun r => and_congr_right fun _ => ?_
  rw [follow_cons_ok, follow, Except.ok.injEq]
  exact and_congr_right fun _ => eq_comm

/-- A dot at the end asks for a directory. -/
theorem follow_here {d : Disk} {origin place : Location} {cs : List Bytes} :
    d.follow origin (cs ++ [utf8 "."]) = .ok place ↔
      d.follow origin cs = .ok place ∧ d.entry? place = some .directory := by
  rw [follow_concat_ok]
  constructor
  · rintro ⟨r, hr, hdir, rfl⟩
    exact ⟨hr, hdir⟩
  · rintro ⟨hr, hdir⟩
    exact ⟨place, hr, hdir, rfl⟩

/-- Carrying out `.` and `..` on the way leads to the same place.  The components that are
left are those of directories that were on the way. -/
theorem follow_foldl_enter {d : Disk} {origin place : Location} {rooted : Bool}
    (horigin : rooted = true → origin = []) (cs : List Bytes) {above : List Bytes}
    {here : Location} (hhere : d.follow origin above.reverse = .ok here)
    (hdots : utf8 "." ∉ above) (h : d.follow here cs = .ok place) :
    d.follow origin (cs.foldl (enter rooted) above).reverse = .ok place := by
  induction cs generalizing above here with
  | nil =>
      cases h
      exact hhere
  | cons c cs ih =>
      obtain ⟨hdir, hrest⟩ := follow_cons_ok.mp h
      rw [List.foldl_cons]
      rcases enter_cases rooted above c with ⟨rfl, heq⟩ | ⟨hne, heq⟩ | ⟨rfl, hrooted, rfl, heq⟩ |
        ⟨rfl, last, rest, rfl, hlast, heq⟩ <;> rw [heq]
      · exact ih hhere hdots (by simpa [into] using hrest)
      · refine ih ?_ (by simp [hdots, Ne.symm hne]) hrest
        rw [List.reverse_cons]
        exact follow_concat_ok.mpr ⟨here, hhere, hdir, rfl⟩
      · -- above the root there is the root again
        cases hhere
        have hroot : into origin (utf8 "..") = origin := by
          rw [horigin hrooted]
          rfl
        rw [hroot] at hrest
        exact ih rfl hdots hrest
      · -- the last component was a name, and its directory was on the way
        rw [List.reverse_cons, follow_concat_ok] at hhere
        obtain ⟨before, hbefore, -, rfl⟩ := hhere
        have hname : last ≠ utf8 "." := fun hdot => hdots (by simp [hdot])
        rw [into_name hname hlast] at hrest
        refine ih hbefore (fun hmem => hdots (List.mem_cons_of_mem _ hmem)) ?_
        simpa [into, show utf8 ".." ≠ utf8 "." by decide] using hrest

theorem follow_resolved {d : Disk} {origin place : Location} {rooted : Bool} {cs : List Bytes}
    (horigin : rooted = true → origin = []) (h : d.follow origin cs = .ok place) :
    d.follow origin (resolved rooted cs) = .ok place :=
  follow_foldl_enter horigin cs rfl (by simp) h

/-! ## Paths -/

/-- The components that a path asks for; a slash at its end asks for a directory. -/
def steps (p : Bytes) : List Bytes :=
  components p ++ if p.getLast? = some slash then [utf8 "."] else []

theorem locate_ok {d : Disk} {p : Bytes} {place : Location} :
    d.locate p = .ok place ↔ p ≠ [] ∧ d.follow (d.start p).1 (steps (d.start p).2) = .ok place := by
  unfold locate steps
  by_cases h : p = [] <;> simp [h]

theorem status_ok {d : Disk} {p : Bytes} {e : Entry} :
    d.status p = .ok e ↔ ∃ place, d.locate p = .ok place ∧ d.entry? place = some e := by
  unfold status
  cases hplace : d.locate p with
  | error reason => simp [bind, Except.bind]
  | ok place =>
      cases he : d.entry? place <;> simp [bind, Except.bind, he]

theorem read_ok {d : Disk} {p content : Bytes} :
    d.read p = .ok content ↔ d.status p = .ok (.file content) := by
  unfold read
  cases d.status p with
  | error reason => simp
  | ok e => cases e <;> simp

theorem write_eq {d : Disk} {p : Bytes} {place : Location} (hplace : d.locate p = .ok place)
    (hfree : d.entry? place ≠ some .directory) (content : Bytes) :
    d.write p content = .ok (d.set place (.file content)) := by
  unfold write
  rw [hplace]
  cases he : d.entry? place with
  | none => simp
  | some e =>
      cases e with
      | file content => simp
      | directory => exact absurd he hfree

/-- Without another name for the current directory, a path starts at the root or there. -/
theorem start_eq {d : Disk} (hhome : d.home = []) (p : Bytes) :
    d.start p = (if isRooted p then [] else d.current, p) := by
  unfold start
  by_cases h : isRooted p = true <;> simp [h, hhome]

/-- The slash at the end makes no difference to a directory. -/
theorem follow_steps {d : Disk} {p : Bytes} {origin place : Location}
    (hdir : d.entry? place = some .directory) :
    d.follow origin (steps p) = .ok place ↔ d.follow origin (components p) = .ok place := by
  unfold steps
  by_cases hslash : p.getLast? = some slash
  · rw [if_pos hslash, follow_here, and_iff_left hdir]
  · rw [if_neg hslash, List.append_nil]

/-- The paths of directories. -/
theorem status_directory {d : Disk} {p : Bytes} :
    d.status p = .ok .directory ↔ p ≠ [] ∧ ∃ place,
      d.follow (d.start p).1 (components (d.start p).2) = .ok place ∧
        d.entry? place = some .directory := by
  rw [status_ok]
  constructor
  · rintro ⟨place, hplace, hdir⟩
    rw [locate_ok, follow_steps hdir] at hplace
    exact ⟨hplace.1, place, hplace.2, hdir⟩
  · rintro ⟨hne, place, hplace, hdir⟩
    exact ⟨place, locate_ok.mpr ⟨hne, (follow_steps hdir).mpr hplace⟩, hdir⟩

/-- The place of a name in a directory. -/
theorem locate_join {d : Disk} (hhome : d.home = []) {directory name : Bytes} {place : Location}
    (hplace : d.locate directory = .ok place) (hdir : d.entry? place = some .directory)
    (hname : IsFileName name) : d.locate (join [directory, name]) = .ok (place ++ [name]) := by
  rw [locate_ok, follow_steps hdir, start_eq hhome] at hplace
  have hresolved := follow_resolved (fun hrooted => if_pos hrooted) hplace.2
  rw [join_name hplace.1 hname, locate_ok, start_eq hhome, isRooted_lead directory hname, steps,
    if_neg (getLast?_lead directory hname), List.append_nil, components_lead directory hname]
  exact ⟨by simp [hname.ne_nil],
    follow_concat_ok.mpr ⟨place, hresolved, hdir, (into_name hname.ne_here hname.ne_above _).symm⟩⟩

/-! ## Disks with the same directories and more -/

/-- The directories of a disk are directories of another, and relative paths start alike. -/
structure Extends (d d' : Disk) : Prop where
  current : d'.current = d.current
  home : d'.home = d.home
  directory : ∀ place, d.entry? place = some .directory → d'.entry? place = some .directory

variable {d d' : Disk}

theorem Extends.follow (h : Extends d d') {place q : Location} {cs : List Bytes}
    (hfollow : d.follow place cs = .ok q) : d'.follow place cs = .ok q := by
  induction cs generalizing place with
  | nil => exact hfollow
  | cons c cs ih =>
      have hcons := follow_cons_ok.mp hfollow
      exact follow_cons_ok.mpr ⟨h.directory place hcons.1, ih hcons.2⟩

theorem Extends.start_eq (h : Extends d d') (p : Bytes) : d'.start p = d.start p := by
  unfold start
  rw [h.current, h.home]

theorem Extends.locate (h : Extends d d') {p : Bytes} {place : Location}
    (hplace : d.locate p = .ok place) : d'.locate p = .ok place := by
  rw [locate_ok] at hplace ⊢
  rw [h.start_eq]
  exact ⟨hplace.1, h.follow hplace.2⟩

theorem Extends.directory_status (h : Extends d d') {p : Bytes}
    (hstatus : d.status p = .ok .directory) : d'.status p = .ok .directory := by
  obtain ⟨place, hplace, he⟩ := status_ok.mp hstatus
  exact status_ok.mpr ⟨place, h.locate hplace, h.directory place he⟩

/-- Everything that stands on a disk stands on another. -/
structure Keeps (d d' : Disk) : Prop where
  current : d'.current = d.current
  home : d'.home = d.home
  entry : ∀ place e, d.entry? place = some e → d'.entry? place = some e

theorem Keeps.refl (d : Disk) : Keeps d d :=
  ⟨rfl, rfl, fun _ _ h => h⟩

theorem Keeps.trans {d'' : Disk} (h : Keeps d d') (h' : Keeps d' d'') : Keeps d d'' :=
  ⟨h'.current.trans h.current, h'.home.trans h.home,
    fun place e he => h'.entry place e (h.entry place e he)⟩

theorem Keeps.extends (h : Keeps d d') : Extends d d' :=
  ⟨h.current, h.home, fun place he => h.entry place _ he⟩

theorem Keeps.read (h : Keeps d d') {p content : Bytes} (hread : d.read p = .ok content) :
    d'.read p = .ok content := by
  obtain ⟨place, hplace, he⟩ := status_ok.mp (read_ok.mp hread)
  exact read_ok.mpr (status_ok.mpr ⟨place, h.extends.locate hplace, h.entry place _ he⟩)

/-! ## Making directories -/

/-- When one directory can be made, and what it adds. -/
theorem makeDirectory_ok {p : Bytes} :
    d.makeDirectory p = .ok d' ↔ p ≠ [] ∧ ∃ front name above,
      components (d.start p).2 = front ++ [name] ∧ name ≠ utf8 "." ∧ name ≠ utf8 ".." ∧
      d.follow (d.start p).1 front = .ok above ∧ d.entry? above = some .directory ∧
      d.entry? (above ++ [name]) = none ∧ d' = d.set (above ++ [name]) .directory := by
  unfold makeDirectory
  by_cases hp : p = []
  · simp [hp]
  · rcases List.eq_nil_or_concat (components (d.start p).2) with hnil | ⟨front, name, hcs⟩
    · simp [hp, hnil]
    · rw [List.concat_eq_append] at hcs
      simp only [hp, hcs, List.getLast?_concat, List.dropLast_concat, if_false, ne_eq,
        not_false_eq_true, true_and]
      cases habove : d.follow (d.start p).1 (front ++ [utf8 "."]) with
      | error reason =>
          constructor
          · intro h
            cases h
          · rintro ⟨front', name', above, heq, -, -, hr, hdir, -, -⟩
            obtain ⟨rfl, -⟩ := List.append_inj' heq rfl
            cases habove.symm.trans (follow_here.mpr ⟨hr, hdir⟩)
      | ok above =>
          constructor
          · intro h
            obtain ⟨hr, hdir⟩ := follow_here.mp habove
            simp only [bind, Except.bind] at h
            split at h
            · cases h
            · rename_i hplain
              simp only [Bool.or_eq_true, decide_eq_true_eq, not_or, Bool.not_eq_true,
                Option.isSome_eq_false_iff, Option.isNone_iff_eq_none] at hplain
              exact ⟨front, name, above, rfl, hplain.1.1, hplain.1.2, hr, hdir, hplain.2,
                (Except.ok.inj h).symm⟩
          · rintro ⟨front', name', above', heq, hhere, hup, hr, hdir, hfree, rfl⟩
            obtain ⟨rfl, hname⟩ := List.append_inj' heq rfl
            cases hname
            cases habove.symm.trans (follow_here.mpr ⟨hr, hdir⟩)
            simp [bind, Except.bind, hhere, hup, hfree]

theorem makeDirectory_keeps {p : Bytes} (h : d.makeDirectory p = .ok d') : Keeps d d' := by
  rw [makeDirectory_ok] at h
  obtain ⟨-, front, name, above, -, -, -, -, -, hfree, rfl⟩ := h
  refine ⟨rfl, rfl, fun place e he => ?_⟩
  rw [entry?_set (by simp)]
  by_cases hplace : place = above ++ [name]
  · rw [hplace, hfree] at he
    cases he
  · rw [if_neg hplace, he]

theorem makeDirectory_status {p : Bytes} (h : d.makeDirectory p = .ok d') :
    d'.status p = .ok .directory := by
  have hextends := (makeDirectory_keeps h).extends
  rw [makeDirectory_ok] at h
  obtain ⟨hne, front, name, above, hcs, hhere, hup, habove, hdir, -, rfl⟩ := h
  refine status_directory.mpr ⟨hne, above ++ [name], ?_, ?_⟩
  · rw [hextends.start_eq, hcs]
    exact follow_concat_ok.mpr ⟨above, hextends.follow habove, hextends.directory above hdir,
      (into_name hhere hup above).symm⟩
  · rw [entry?_set (by simp), if_pos rfl]

/-- A directory that is there is not made. -/
theorem makeDirectory_absent {p : Bytes} (h : d.makeDirectory p = .ok d') :
    d.status p ≠ .ok .directory := by
  rw [makeDirectory_ok] at h
  obtain ⟨-, front, name, above, hcs, hhere, hup, habove, -, hfree, -⟩ := h
  intro hstatus
  obtain ⟨-, place, hplace, hdir⟩ := status_directory.mp hstatus
  rw [hcs, follow_concat_ok] at hplace
  obtain ⟨r, hr, -, rfl⟩ := hplace
  cases habove.symm.trans hr
  rw [into_name hhere hup, hfree] at hdir
  cases hdir

/-- When a chain of directories can be made. -/
theorem makeChain_ok {p : Bytes} {above : List Bytes} :
    makeChain (p :: above) d = (.ok (), d') ↔
      (d.status p = .ok .directory ∧ d' = d) ∨
      ((∃ reason, d.status p = .error reason) ∧ ∃ made, makeChain above d = (.ok (), made) ∧
        (made.makeDirectory p = .ok d' ∨
          (∃ reason, made.makeDirectory p = .error reason) ∧ made.status p = .ok .directory ∧
            d' = made)) := by
  rw [makeChain]
  cases hstatus : d.status p with
  | ok e => cases e <;> simp [eq_comm]
  | error reason =>
      rcases hchain : makeChain above d with ⟨answer, made⟩
      cases answer with
      | error f => simp
      | ok _ =>
          cases hmake : made.makeDirectory p with
          | ok d'' => simp [eq_comm, hmake]
          | error reason =>
              cases hthere : made.status p with
              | error reason => simp [hthere, hmake]
              | ok e => cases e <;> simp [eq_comm, hthere, hmake]

theorem makeChain_keeps {ps : List Bytes} (h : makeChain ps d = (.ok (), d')) : Keeps d d' := by
  induction ps generalizing d' with
  | nil =>
      cases h
      exact .refl d
  | cons p above ih =>
      rw [makeChain_ok] at h
      rcases h with ⟨-, rfl⟩ | ⟨-, made, hmade, hmake | ⟨-, -, rfl⟩⟩
      · exact .refl d'
      · exact (ih hmade).trans (makeDirectory_keeps hmake)
      · exact ih hmade

theorem makeDirectories_keeps {p : Bytes} (h : d.makeDirectories p = (.ok (), d')) : Keeps d d' :=
  makeChain_keeps h

theorem makeDirectories_status {p : Bytes} (h : d.makeDirectories p = (.ok (), d')) :
    d'.status p = .ok .directory := by
  rw [makeDirectories, makeChain_ok] at h
  rcases h with ⟨hstatus, rfl⟩ | ⟨-, made, -, hmake | ⟨-, hstatus, rfl⟩⟩
  · exact hstatus
  · exact makeDirectory_status hmake
  · exact hstatus

/-- Where the directory is there, nothing is made. -/
theorem makeDirectories_of_status {p : Bytes} (h : d.status p = .ok .directory) :
    d.makeDirectories p = (.ok (), d) := by
  rw [makeDirectories, makeChain_ok]
  exact .inl ⟨h, rfl⟩

/-! ## Taking files away -/

def without (d : Disk) (gone : List Location) : Disk :=
  { d with entries := d.entries.filter fun e => !decide (e.1 ∈ gone) }

theorem lookup_filter (gone : List Location) (place : Location)
    (entries : List (Location × Entry)) :
    (entries.filter fun e => !decide (e.1 ∈ gone)).lookup place =
      if place ∈ gone then none else entries.lookup place := by
  induction entries with
  | nil => simp
  | cons x entries ih =>
      obtain ⟨found, e⟩ := x
      rw [List.filter_cons, lookup_cons]
      by_cases hfound : found ∈ gone
      · simp only [hfound, decide_true, Bool.not_true, Bool.false_eq_true, if_false, ih]
        by_cases hplace : place = found <;> simp [hfound, hplace]
      · by_cases hplace : place = found <;> simp [hfound, hplace, lookup_cons, ih]

def AreFiles (d : Disk) (places : List Location) : Prop :=
  ∀ place ∈ places, ∃ content, d.entry? place = some (.file content)

variable {gone : List Location}

theorem AreFiles.keeps (h : d.AreFiles gone) (hkeeps : Keeps d d') : d'.AreFiles gone := by
  intro place hplace
  obtain ⟨content, he⟩ := h place hplace
  exact ⟨content, hkeeps.entry place _ he⟩

theorem AreFiles.entry?_without (h : d.AreFiles gone) (place : Location) :
    Disk.entry? (d.without gone) place = if place ∈ gone then none else d.entry? place := by
  unfold Disk.entry? Disk.without
  by_cases hroot : place = []
  · have hmem : [] ∉ gone := by
      intro hmem
      obtain ⟨content, he⟩ := h [] hmem
      simp [ Disk.entry?] at he
    simp [hroot, hmem]
  · simp only [hroot, if_false]
    exact lookup_filter gone place d.entries

theorem AreFiles.extends_without (h : d.AreFiles gone) : Extends d (d.without gone) := by
  refine ⟨rfl, rfl, fun place hdir => ?_⟩
  have hkept : place ∉ gone := by
    intro hmem
    obtain ⟨content, he⟩ := h place hmem
    cases he.symm.trans hdir
  rw [h.entry?_without, if_neg hkept, hdir]

theorem AreFiles.keeps_without (h : d.AreFiles gone) : Keeps (d.without gone) d := by
  refine ⟨rfl, rfl, fun place e he => ?_⟩
  rw [h.entry?_without] at he
  split at he
  · cases he
  · exact he

theorem set_without {place : Location} (h : place ∉ gone) (d : Disk) (e : Entry) :
    (d.set place e).without gone = (d.without gone).set place e := by
  obtain ⟨entries, current, home⟩ := d
  simp only [set, without, Disk.mk.injEq, and_true]
  induction entries with
  | nil => simp [setEntry, h]
  | cons x entries ih =>
      by_cases hx : x.1 = place
      · simp [setEntry, hx, h]
      · by_cases hgone : x.1 ∈ gone <;> simp [setEntry, hx, hgone, ih]

theorem AreFiles.makeDirectory_without (h : d.AreFiles gone) {p : Bytes}
    (hmake : d.makeDirectory p = .ok d') :
    (d.without gone).makeDirectory p = .ok (d'.without gone) := by
  rw [makeDirectory_ok] at hmake ⊢
  obtain ⟨hne, front, name, above, hcs, hhere, hup, habove, hdir, hfree, rfl⟩ := hmake
  have hextends := h.extends_without
  have hkept : above ++ [name] ∉ gone := by
    intro hmem
    obtain ⟨content, he⟩ := h _ hmem
    cases he.symm.trans hfree
  refine ⟨hne, front, name, above, ?_, hhere, hup, ?_, hextends.directory above hdir, ?_,
    set_without hkept d _⟩
  · rw [hextends.start_eq, hcs]
  · rw [hextends.start_eq]
    exact hextends.follow habove
  · rw [h.entry?_without, if_neg hkept, hfree]

/-- Directories are made alike when files are away. -/
theorem AreFiles.makeChain_without (h : d.AreFiles gone) {ps : List Bytes}
    (hmake : makeChain ps d = (.ok (), d')) :
    makeChain ps (d.without gone) = (.ok (), d'.without gone) := by
  induction ps generalizing d' with
  | nil =>
      cases hmake
      rfl
  | cons p above ih =>
      have hextends := h.extends_without
      rw [makeChain_ok] at hmake ⊢
      rcases hmake with ⟨hstatus, rfl⟩ | ⟨⟨reason, hstatus⟩, made, hmade, hlast⟩
      · exact .inl ⟨hextends.directory_status hstatus, rfl⟩
      · have hmissing : ∃ reason, (d.without gone).status p = .error reason := by
          cases hwithout : (d.without gone).status p with
          | error reason => exact ⟨reason, rfl⟩
          | ok e =>
              obtain ⟨place, hplace, he⟩ := status_ok.mp hwithout
              have hthere := status_ok.mpr ⟨place, h.keeps_without.extends.locate hplace,
                h.keeps_without.entry place e he⟩
              cases hstatus.symm.trans hthere
        have hfiles := h.keeps (makeChain_keeps hmade)
        refine .inr ⟨hmissing, made.without gone, ih hmade, ?_⟩
        rcases hlast with hlast | ⟨-, hthere, rfl⟩
        · exact .inl (hfiles.makeDirectory_without hlast)
        · have hthere' := hfiles.extends_without.directory_status hthere
          cases hagain : (d'.without gone).makeDirectory p with
          | ok d'' => exact absurd hthere' (makeDirectory_absent hagain)
          | error reason => exact .inr ⟨⟨reason, rfl⟩, hthere', rfl⟩

theorem AreFiles.makeDirectories_without (h : d.AreFiles gone) {p : Bytes}
    (hmake : d.makeDirectories p = (.ok (), d')) :
    (d.without gone).makeDirectories p = (.ok (), d'.without gone) :=
  h.makeChain_without hmake

end Disk

end RToJulia
